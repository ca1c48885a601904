import Solocoder.ColStore.Store
import Solocoder.Lib.Gaps
import Solocoder.Lib.Representatives

/-!
# Proofs: the rows of a column store

A column holds the values that the batches gave for it, so a batch without the column leaves no
trace. With a dictionary a value is stored as the first one that Go takes for equal.
-/

namespace Solocoder.ColStore

open Lib.Gaps Lib.Representatives List Function Option Value

variable {O : Type}

/-! ## Batches -/

/-- The values a batch has for the column `c`. -/
def given (batch : List (ColumnBatch O)) (c : String) : Option (List (Value O)) :=
  (batch.find? fun cb => cb.name = c).map (·.values)

/-- The number of rows of a batch. -/
def rowsOf (batch : List (ColumnBatch O)) : Nat := (batch.head?.map (·.values.length)).getD 0

theorem given_cons (cb : ColumnBatch O) (batch : List (ColumnBatch O)) (c : String) :
    given (cb :: batch) c = if cb.name = c then some cb.values else given batch c := by
  unfold given
  split <;> simp_all

variable {batch : List (ColumnBatch O)}

theorem given_eq_none_iff {c : String} : given batch c = none ↔ c ∉ batch.map (·.name) := by
  simp [given]

theorem mem_of_given {c : String} {values : List (Value O)} (h : given batch c = some values) :
    c ∈ batch.map (·.name) := by
  by_contra hnot
  rw [given_eq_none_iff.2 hnot] at h
  cases h

theorem checkBatch_spec {seenNames : List String} {rows rows' : Option Nat} (hseen : seenNames.Nodup)
    (h : checkBatch batch seenNames rows = .ok rows') :
    (batch.map (·.name) ++ seenNames).Nodup ∧ (∀ n ∈ rows, rows' = some n) ∧
      ∀ cb ∈ batch, rows' = some cb.values.length := by
  induction batch generalizing seenNames rows with
  | nil =>
    cases h
    exact ⟨hseen, fun _ h => h, nofun⟩
  | cons cb batch ih =>
    unfold checkBatch at h
    split at h
    · cases h
    next hname =>
    obtain ⟨hrows, hrest⟩ : (∀ n ∈ rows, cb.values.length = n) ∧
        checkBatch batch (cb.name :: seenNames) (some cb.values.length) = .ok rows' := by
      cases rows with
      | none => exact ⟨nofun, h⟩
      | some n =>
        simp only [ne_eq, ite_not] at h
        split at h
        next hlen => exact ⟨fun n' hn' => hlen.trans (some.inj hn'), hlen ▸ h⟩
        · cases h
    obtain ⟨hnodup, hkeep, hall⟩ := ih (nodup_cons.2 ⟨hname, hseen⟩) hrest
    refine ⟨nodup_middle.1 hnodup, fun n hn => ?_, forall_mem_cons.2 ⟨hkeep _ rfl, hall⟩⟩
    rw [← hrows n hn]
    exact hkeep _ rfl

variable [GoValue O]

/-! ## Equality of values -/

namespace Value

theorem goEq_symm (x y : Value O) (h : x.goEq y) : y.goEq x := by
  cases x <;> cases y <;> simp only [goEq, Bool.false_eq_true] at h ⊢
  case float64.float64 =>
    simp only [Float64.eq, Bool.and_eq_true, beq_iff_eq] at h ⊢
    exact ⟨h.1.symm, h.2.symm⟩
  case other.other => exact GoValue.eq_symm _ _ h
  all_goals exact beq_iff_eq.2 (beq_iff_eq.1 h).symm

theorem goEq_trans (x y z : Value O) (hxy : x.goEq y) (hyz : y.goEq z) : x.goEq z := by
  cases x <;> cases y <;> simp only [goEq, Bool.false_eq_true] at hxy <;> cases z <;>
    simp only [goEq, Bool.false_eq_true] at hyz ⊢
  case float64.float64.float64 =>
    simp only [Float64.eq, Bool.and_eq_true, beq_iff_eq] at hxy hyz ⊢
    exact ⟨⟨hxy.1.1, hyz.1.2⟩, hxy.2.trans hyz.2⟩
  case other.other.other => exact GoValue.eq_trans _ _ _ hxy hyz
  all_goals exact beq_iff_eq.2 ((beq_iff_eq.1 hxy).trans (beq_iff_eq.1 hyz))

theorem goEq_nil_iff {x : Value O} : x.goEq .nil ↔ x = .nil := by
  cases x <;> simp [goEq]

theorem nil_goEq_iff {x : Value O} : (nil : Value O).goEq x ↔ x = .nil := by
  cases x <;> simp [goEq]

end Value

/-! ## Columns -/

def stand (dict : Bool) (vs : List (Value O)) (v : Value O) : Value O :=
  if dict then representative goEq vs v else v

theorem stand_eq_nil_iff (dict : Bool) (vs : List (Value O)) (v : Value O) :
    stand dict vs v = .nil ↔ v = .nil := by
  cases dict with
  | false => rfl
  | true =>
    show representative goEq vs v = .nil ↔ v = .nil
    cases hfind : vs.find? (·.goEq v) with
    | none => rw [representative, hfind, getD_none]
    | some x =>
      have heq : x.goEq v := by simpa using find?_some hfind
      rw [representative_of_find hfind]
      constructor
      · rintro rfl
        exact nil_goEq_iff.1 heq
      · rintro rfl
        exact goEq_nil_iff.1 heq

namespace Column

variable {c c' : Column O} {vs values : List (Value O)} {v : Value O}

/-- What a column with a dictionary holds after the values `vs`. -/
structure Coded (c : Column O) (vs : List (Value O)) : Prop where
  enabled : c.dictEnabled
  dict : c.dict = c.reverseDict.zipIdx
  find : ∀ v : Value O, c.reverseDict.find? (·.goEq v) = vs.find? (·.goEq v)
  data : c.encodedData.map (c.reverseDict[·]?) = (vs.map (representative goEq vs)).map some

theorem Coded.find_entry (h : Coded c vs) : (∀ entry, c.dict.find? (·.1.goEq v) = some entry →
      vs.find? (·.goEq v) = some entry.1 ∧ c.reverseDict[entry.2]? = some entry.1) ∧
    (c.dict.find? (·.1.goEq v) = none → vs.find? (·.goEq v) = none) := by
  have hmap : vs.find? (·.goEq v) = (c.dict.find? (·.1.goEq v)).map Prod.fst := by
    have hfst : c.reverseDict = c.dict.map Prod.fst := by rw [h.dict, zipIdx_map_fst]
    rw [← h.find, hfst, find?_map]
    rfl
  rw [hmap]
  constructor
  · intro entry hentry
    have hmem : entry ∈ c.reverseDict.zipIdx := h.dict ▸ mem_of_find?_eq_some hentry
    exact ⟨by rw [hentry, map_some], mem_zipIdx_iff_getElem?.1 hmem⟩
  · intro hnone
    rw [hnone, map_none]

theorem map_representative_concat (vs : List (Value O)) (v : Value O) :
    (vs ++ [v]).map (representative goEq (vs ++ [v])) =
      vs.map (representative goEq vs) ++ [representative goEq (vs ++ [v]) v] := by
  rw [map_append]
  congr 1
  refine map_congr_left fun w hw => ?_
  exact representative_append Value.goEq_symm goEq_trans hw [v]

theorem Coded.encode {idx : Nat} (h : Coded c vs) (henc : c.encode v = some (c', idx)) :
    Coded { c' with encodedData := c'.encodedData ++ [idx] } (vs ++ [v]) := by
  obtain ⟨hfound, hmissing⟩ := h.find_entry (v := v)
  unfold Column.encode at henc
  split at henc
  case isFalse => cases henc
  case isTrue =>
  cases hentry : c.dict.find? (·.1.goEq v) with
  | some entry =>
    obtain ⟨hvs, hget⟩ := hfound entry hentry
    rw [hentry] at henc
    cases henc
    refine ⟨h.enabled, h.dict, fun u => ?_, ?_⟩
    · rw [h.find, find?_append]
      cases hu : vs.find? (·.goEq u) with
      | some x => rfl
      | none =>
        -- a value that is equal to the new one would be equal to the entry too
        have hne : ¬ v.goEq u := by
          intro hvu
          rw [← find?_congr goEq_symm goEq_trans hvu, hvs] at hu
          cases hu
        simp [hne]
    · have hrep : representative goEq (vs ++ [v]) v = entry.1 :=
        representative_of_find (by rw [find?_append, hvs]; rfl)
      rw [map_representative_concat, hrep, map_append, map_append, ← h.data,
        map_singleton, map_singleton, hget]
  | none =>
    have hvs := hmissing hentry
    rw [hentry] at henc
    cases henc
    refine ⟨h.enabled, ?_, fun u => ?_, ?_⟩
    · rw [h.dict, zipIdx_append]
      simp
    · rw [find?_append, find?_append, h.find]
    · have hrep : representative goEq (vs ++ [v]) v = v := by
        rw [representative, find?_append, hvs]
        cases hself : v.goEq v <;> simp [hself]
      have hold : c.encodedData.map ((c.reverseDict ++ [v])[·]?) =
          c.encodedData.map (c.reverseDict[·]?) := by
        refine map_congr_left fun i hi => ?_
        have hmem : c.reverseDict[i]? ∈ (vs.map (representative goEq vs)).map some :=
          h.data ▸ mem_map_of_mem hi
        obtain ⟨x, -, hx⟩ := mem_map.1 hmem
        exact getElem?_append_left (List.getElem?_eq_some_iff.1 hx.symm).1
      rw [map_representative_concat, hrep, map_append, map_append, hold, ← h.data,
        map_singleton, map_singleton, getElem?_concat_length]

theorem Coded.appendEncoded (h : Coded c vs) (happ : c.appendEncoded values = (c', true)) :
    Coded c' (vs ++ values) := by
  induction values generalizing c vs with
  | nil =>
    cases happ
    rwa [append_nil]
  | cons v values ih =>
    unfold appendEncoded at happ
    cases henc : c.encode v with
    | none =>
      rw [henc] at happ
      cases happ
    | some p =>
      rw [henc] at happ
      have hrest := ih (h.encode henc) happ
      rwa [append_assoc] at hrest

/-- What a column holds after the values `vs`. -/
inductive Holds : Bool → Column O → List (Value O) → Prop
  | coded {c : Column O} {vs : List (Value O)} : Coded c vs → Holds true c vs
  | raw {c : Column O} : c.dictEnabled = false → Holds false c c.rawData

theorem Holds.new (dict : Bool) : Holds (O := O) dict (newColumn dict) [] := by
  cases dict with
  | false => exact .raw rfl
  | true => exact .coded ⟨rfl, rfl, fun _ => rfl, rfl⟩

theorem Holds.append {dict : Bool} (h : Holds dict c vs)
    (happ : c.appendValues values = (c', true)) : Holds dict c' (vs ++ values) := by
  unfold appendValues at happ
  cases h with
  | raw hoff =>
    rw [hoff] at happ
    cases happ
    exact .raw rfl
  | coded h =>
    rw [if_pos h.enabled] at happ
    exact .coded (h.appendEncoded happ)

theorem Holds.getValueAt {dict : Bool} (h : Holds dict c vs) (i : Nat) :
    c.getValueAt i = ((vs.map (stand dict vs))[i]?).getD .nil := by
  unfold Column.getValueAt
  cases h with
  | raw hoff =>
    have hid : stand false c.rawData = id := rfl
    rw [hoff, hid, List.map_id]
    rfl
  | coded h =>
    have hdata : c.encodedData.map c.decode = vs.map (representative goEq vs) := by
      have hget := congrArg (List.map (·.getD .nil)) h.data
      rwa [List.map_map, List.map_map, List.map_map] at hget
    rw [if_pos h.enabled, ← getElem?_map, hdata]
    rfl

end Column

/-! ## Writes -/

namespace ColumnStore

variable {cs cs' : ColumnStore O} {dict : Bool} {content : String → Option (List (Value O))}

/-- The columns of the store hold the given values. -/
def Tracks (dict : Bool) (cs : ColumnStore O) (content : String → Option (List (Value O))) : Prop :=
  ∀ c, Option.Rel (Column.Holds dict) (cs.columns.lookup c) (content c)

theorem Tracks.congr {content' : String → Option (List (Value O))} (h : Tracks dict cs content)
    (heq : ∀ c, content' c = content c) : Tracks dict cs content' := by
  rwa [show content' = content from funext heq]

theorem Tracks.insert (h : Tracks dict cs content) (name : String) {col : Column O}
    {vs : List (Value O)} (hcol : col.Holds dict vs) (colOrder : List String) :
    Tracks dict { cs with columns := cs.columns.insert name col, colOrder := colOrder }
      (update content name (some vs)) := by
  intro c
  by_cases hc : c = name
  · subst hc
    rw [update_self, AList.lookup_insert]
    exact .some hcol
  · rw [update_of_ne hc, AList.lookup_insert_ne hc]
    exact h c

/-- The fields that a write changes at its end only. -/
def counts (cs : ColumnStore O) : Nat × Bool × Bool := (cs.rowCount, cs.closed, cs.dictEnabled)

theorem Tracks.ensureColumn (h : Tracks dict cs content) (hdict : cs.dictEnabled = dict)
    (cb : ColumnBatch O) :
    (cs.ensureColumn cb).counts = cs.counts ∧
      Tracks dict (cs.ensureColumn cb) (update content cb.name (some ((content cb.name).getD []))) := by
  have hname := h cb.name
  unfold ColumnStore.ensureColumn
  generalize cs.columns.lookup cb.name = x, hc : content cb.name = y at hname ⊢
  cases hname with
  | none => exact ⟨rfl, h.insert cb.name (hdict ▸ Column.Holds.new _) _⟩
  | some _ => exact ⟨rfl, by rwa [getD_some, ← hc, update_eq_self]⟩

theorem Tracks.ensureColumns (h : Tracks dict cs content) (hdict : cs.dictEnabled = dict)
    (batch : List (ColumnBatch O)) :
    (batch.foldl ColumnStore.ensureColumn cs).counts = cs.counts ∧
      Tracks dict (batch.foldl ColumnStore.ensureColumn cs) fun c =>
        if c ∈ batch.map (·.name) then some ((content c).getD []) else content c := by
  induction batch generalizing cs content with
  | nil => exact ⟨rfl, by simpa using h⟩
  | cons cb batch ih =>
    obtain ⟨hcounts, hcb⟩ := h.ensureColumn hdict cb
    have hdict' : (cs.ensureColumn cb).dictEnabled = dict := (congrArg (·.2.2) hcounts).trans hdict
    obtain ⟨hrest, htracks⟩ := ih hcb hdict'
    refine ⟨hrest.trans hcounts, htracks.congr fun c => ?_⟩
    by_cases hc : c = cb.name
    · subst hc
      simp
    · simp [hc]

variable {batch : List (ColumnBatch O)}

theorem Tracks.appendColumns (h : Tracks dict cs content)
    (hnodup : (batch.map (·.name)).Nodup) (happ : cs.appendColumns batch = (cs', true)) :
    cs'.counts = cs.counts ∧ Tracks dict cs' fun c =>
      match given batch c with
      | none => content c
      | some values => (content c).map (· ++ values) := by
  induction batch generalizing cs content with
  | nil =>
    cases happ
    exact ⟨rfl, h⟩
  | cons cb batch ih =>
    obtain ⟨hfresh, hnodup⟩ := nodup_cons.1 hnodup
    have hname := h cb.name
    unfold appendColumns at happ
    generalize cs.columns.lookup cb.name = x, hc : content cb.name = y at hname happ
    cases hname with
    | none => cases happ
    | @some col vs hholds =>
      rcases hvalues : col.appendValues cb.values with ⟨col', _ | _⟩ <;> simp only [hvalues] at happ
      · cases happ
      · have hins := h.insert cb.name (hholds.append hvalues) cs.colOrder
        obtain ⟨hrest, htracks⟩ := ih hins hnodup happ
        refine ⟨hrest, htracks.congr fun c => ?_⟩
        rw [given_cons]
        by_cases hcb : cb.name = c
        · subst hcb
          rw [if_pos rfl, given_eq_none_iff.2 hfresh, update_self, hc]
          rfl
        · rw [if_neg hcb, update_of_ne (Ne.symm hcb)]

/-- What a batch makes of the values of a column. -/
def extend (content : String → Option (List (Value O))) (batch : List (ColumnBatch O))
    (c : String) : Option (List (Value O)) :=
  match given batch c with
  | none => content c
  | some values => some ((content c).getD [] ++ values)

theorem write_done (h : Tracks dict cs content)
    (hdict : cs.dictEnabled = dict) (hwrite : cs.write batch = (cs', .done)) :
    (∀ cb ∈ batch, cb.values.length = rowsOf batch) ∧
      cs'.counts = (cs.rowCount + rowsOf batch, false, dict) ∧ Tracks dict cs' (extend content batch) := by
  unfold write at hwrite
  split at hwrite
  · cases hwrite
  next hopen =>
  cases batch with
  | nil => cases hwrite
  | cons cb0 rest =>
  cases hcheck : checkBatch (cb0 :: rest) [] none with
  | error e =>
    simp only [hcheck] at hwrite
    cases hwrite
  | ok expectedRows =>
    obtain ⟨hnodup, -, hall⟩ := checkBatch_spec nodup_nil hcheck
    obtain rfl : expectedRows = some (rowsOf (cb0 :: rest)) := hall cb0 mem_cons_self
    have hlen : ∀ cb ∈ cb0 :: rest, cb.values.length = rowsOf (cb0 :: rest) :=
      fun cb hcb => (some.inj (hall cb hcb)).symm
    generalize hbatch : cb0 :: rest = batch at *
    have hne : batch.isEmpty = false := by rw [← hbatch]; rfl
    obtain ⟨hcounts, hensured⟩ := h.ensureColumns hdict batch
    have hcs : cs.counts = (cs.rowCount, false, dict) := by simp [counts, hopen, hdict]
    simp only [hne, hcheck, getD_some, Bool.false_eq_true, if_false] at hwrite
    split at hwrite
    next hzero =>
      -- no rows: the columns are created and stay empty
      obtain rfl : _ = cs' := (Prod.mk.inj hwrite).1
      refine ⟨hlen, hcounts.trans (by rw [hcs, hzero]; rfl), hensured.congr fun c => ?_⟩
      unfold extend
      cases hgiven : given batch c with
      | none => rw [if_neg (given_eq_none_iff.1 hgiven)]
      | some values =>
        have hmem := mem_of_given hgiven
        obtain ⟨cb, hcb, hvalues⟩ := map_eq_some_iff.1 hgiven
        have hnil : values = [] := by
          rw [← hvalues, ← length_eq_zero_iff, hlen cb (mem_of_find?_eq_some hcb), hzero]
        simp only [if_pos hmem, hnil, append_nil]
    · rcases happ : (batch.foldl ensureColumn cs).appendColumns batch with ⟨cs1, _ | _⟩ <;>
        simp only [happ] at hwrite
      · cases (Prod.mk.inj hwrite).2
      · rw [append_nil] at hnodup
        obtain ⟨hcounts', htracks⟩ := hensured.appendColumns hnodup happ
        obtain rfl : _ = cs' := (Prod.mk.inj hwrite).1
        obtain ⟨hrow, hrest⟩ := Prod.mk.inj ((hcounts'.trans hcounts).trans hcs)
        refine ⟨hlen, Prod.ext (congrArg (· + rowsOf batch) hrow) hrest, htracks.congr fun c => ?_⟩
        unfold extend
        cases hgiven : given batch c with
        | none => rw [if_neg (given_eq_none_iff.1 hgiven)]
        | some values => simp only [if_pos (mem_of_given hgiven), map_some]

theorem writeAll_spec {batches : List (List (ColumnBatch O))} (h : Tracks dict cs content)
    (hdict : cs.dictEnabled = dict) (hopen : cs.closed = false)
    (hrun : cs.writeAll batches = some cs') :
    (∀ batch ∈ batches, ∀ cb ∈ batch, cb.values.length = rowsOf batch) ∧ cs'.closed = false ∧
      cs'.rowCount = cs.rowCount + (batches.map rowsOf).sum ∧
      Tracks dict cs' (batches.foldl extend content) := by
  induction batches generalizing cs content with
  | nil =>
    cases hrun
    exact ⟨nofun, hopen, rfl, h⟩
  | cons batch batches ih =>
    unfold writeAll at hrun
    split at hrun
    next cs1 hwrite =>
      obtain ⟨hlen, hcounts, htracks⟩ := write_done h hdict hwrite
      obtain ⟨hrows, hrest⟩ := Prod.mk.inj hcounts
      obtain ⟨hopen1, hdict1⟩ := Prod.mk.inj hrest
      obtain ⟨hall, hopen', hrows', htracks'⟩ := ih htracks hdict1 hopen1 hrun
      refine ⟨forall_mem_cons.2 ⟨hlen, hall⟩, hopen', ?_, htracks'⟩
      rw [hrows', hrows, map_cons, sum_cons, Nat.add_assoc]
    · cases hrun

end ColumnStore

/-! ## What the rows should be -/

section Rows

variable (batches : List (List (ColumnBatch O))) (c : String)

omit [GoValue O]

/-- Some batch has the column. -/
def Named : Prop := ∃ batch ∈ batches, c ∈ batch.map (·.name)

variable (batch : List (ColumnBatch O))

/-- The values of a column in the rows of a batch, nil when the batch does not contain it. -/
def columnOf (c : String) : List (Value O) :=
  (given batch c).getD (replicate (rowsOf batch) .nil)

/-- What the column should hold after the batches. -/
def expected : List (Value O) := batches.flatMap (columnOf · c)

/-- The values that the batches have for the column. -/
def givenValues : List (Value O) := batches.flatMap fun batch => (given batch c).getD []

/-- One row for each row ever written, in the order of the writes, each with its own values. -/
def Aligned (columns : List String) (result : QueryResult O) : Prop :=
  result.rows.length = (batches.map rowsOf).sum ∧
    ∀ c ∈ columns, result.rows.map (·.lookup c) = (expected batches c).map some

/-- Behind a batch that has rows and lacks the column, only nil is given for it. -/
def NilAfterGap : Prop :=
  ∀ before batch after, batches = before ++ batch :: after → given batch c = none →
    0 < rowsOf batch → ∀ v ∈ givenValues after c, v = .nil

/-- Values that Go takes for equal are the same. -/
def Unambiguous : Prop :=
  ∀ v ∈ givenValues batches c, ∀ w ∈ givenValues batches c, v.goEq w → v = w

/-- The rows of a batch, with a gap where it lacks the column. -/
def slotsOf (c : String) : List (Option (Value O)) :=
  match given batch c with
  | none => replicate (rowsOf batch) none
  | some values => values.map some

def slots : List (Option (Value O)) := batches.flatMap (slotsOf · c)

variable {batches c}

theorem expected_eq : expected batches c = (slots batches c).map (·.getD .nil) := by
  unfold expected slots
  rw [map_flatMap]
  congr 1
  funext batch
  unfold columnOf slotsOf
  cases given batch c with
  | none => simp
  | some values => simp [comp_def]

theorem givenValues_eq : givenValues batches c = (slots batches c).reduceOption := by
  unfold givenValues slots
  induction batches with
  | nil => rfl
  | cons batch batches ih =>
    rw [flatMap_cons, flatMap_cons, reduceOption_append]
    congr 1
    unfold slotsOf
    cases given batch c with
    | none => simp
    | some values => simp [reduceOption]

theorem some_mem_slots {v : Value O} : some v ∈ slots batches c ↔ v ∈ givenValues batches c := by
  rw [givenValues_eq, reduceOption_mem_iff]

theorem length_slots (h : ∀ batch ∈ batches, ∀ cb ∈ batch, cb.values.length = rowsOf batch) :
    (slots batches c).length = (batches.map rowsOf).sum := by
  rw [slots, length_flatMap]
  congr 1
  refine map_congr_left fun batch hbatch => ?_
  unfold slotsOf
  cases hgiven : given batch c with
  | none => exact length_replicate
  | some values =>
    obtain ⟨cb, hcb, rfl⟩ := map_eq_some_iff.1 hgiven
    rw [length_map, h batch hbatch cb (mem_of_find?_eq_some hcb)]

theorem nilAfterGap_cons {batch : List (ColumnBatch O)} : NilAfterGap (batch :: batches) c ↔
      (given batch c = none → 0 < rowsOf batch → ∀ v ∈ givenValues batches c, v = .nil) ∧
        NilAfterGap batches c := by
  constructor
  · intro h
    refine ⟨h [] batch batches rfl, fun before b after heq => ?_⟩
    exact h (batch :: before) b after (by rw [heq]; rfl)
  · rintro ⟨hhead, hrest⟩ before b after heq
    cases before with
    | nil =>
      obtain ⟨rfl, rfl⟩ := cons.inj heq
      exact hhead
    | cons b' before => exact hrest before b after (cons.inj heq).2

theorem sunk_slots_iff : Sunk .nil (slots batches c) ↔ NilAfterGap batches c := by
  induction batches with
  | nil => exact ⟨fun _ before _ _ heq => absurd heq (by simp), fun _ => trivial⟩
  | cons batch batches ih =>
    have hcons : slots (batch :: batches) c = slotsOf batch c ++ slots batches c := rfl
    rw [nilAfterGap_cons, ← ih, hcons]
    unfold slotsOf
    cases given batch c with
    | none =>
      rw [sunk_replicate_append]
      simp [some_mem_slots]
    | some values =>
      rw [sunk_map_some_append]
      simp

theorem givenValues_cons :
    givenValues (batch :: batches) c = (given batch c).getD [] ++ givenValues batches c := rfl

variable (batches c) (content : String → Option (List (Value O)))

theorem getD_foldl_extend :
    (batches.foldl ColumnStore.extend content c).getD [] =
      (content c).getD [] ++ givenValues batches c := by
  induction batches generalizing content with
  | nil => simp [givenValues]
  | cons batch batches ih =>
    rw [foldl_cons, ih, givenValues_cons, ← append_assoc]
    unfold ColumnStore.extend
    cases given batch c <;> simp

theorem isSome_foldl_extend :
    (batches.foldl ColumnStore.extend content c).isSome ↔ (content c).isSome ∨ Named batches c := by
  induction batches generalizing content with
  | nil => simp [Named]
  | cons batch batches ih =>
    have hnamed : Named (batch :: batches) c ↔ given batch c ≠ none ∨ Named batches c := by
      rw [ne_eq, given_eq_none_iff, not_not]
      simp [Named]
    rw [foldl_cons, ih, hnamed]
    unfold ColumnStore.extend
    cases given batch c <;> simp

end Rows

namespace ColumnStore

variable {cs : ColumnStore O}

/-! ## Reads -/

variable {columns : List String} {c : String} {dict : Bool}

omit [GoValue O] in
theorem checkColumns_eq_none :
    cs.checkColumns columns = none ↔ ∀ c ∈ columns, (cs.columns.lookup c).isSome := by
  induction columns with
  | nil => simp [checkColumns]
  | cons col columns ih =>
    unfold checkColumns
    cases hcol : cs.columns.lookup col with
    | none => simp [hcol]
    | some _ => simp [hcol, ih]

theorem read_eq_ok {result : QueryResult O} (hopen : cs.closed = false) :
    cs.read columns = .ok result ↔ columns ≠ [] ∧ (∀ c ∈ columns, (cs.columns.lookup c).isSome) ∧
        result = ⟨(range cs.rowCount).map (cs.project columns), columns, cs.rowCount,
          cs.rowCount⟩ := by
  unfold read readWithFilter
  rw [← checkColumns_eq_none]
  cases columns with
  | nil => simp [hopen]
  | cons col columns =>
    cases hcheck : cs.checkColumns (col :: columns) with
    | some e => simp [hopen]
    | none => simp [hopen, checkPredicates, eq_comm]

omit [GoValue O] in
theorem lookup_project (hc : c ∈ columns) (i : Nat) :
    (cs.project columns i).lookup c = some (cs.valueAt c i) := by
  have hfold : ∀ row : Row O,
      (columns.foldl (fun row colName => row.insert colName (cs.valueAt colName i)) row).lookup c =
        if c ∈ columns then some (cs.valueAt c i) else row.lookup c := by
    clear hc
    induction columns with
    | nil => intro row; rfl
    | cons col columns ih =>
      intro row
      rw [foldl_cons, ih]
      by_cases hcol : c = col
      · subst hcol
        simp
      · simp [hcol]
  rw [project, hfold, if_pos hc]

theorem map_lookup_rows {vs : List (Value O)} {col : Column O} (hc : c ∈ columns)
    (hcol : cs.columns.lookup c = some col) (hholds : col.Holds dict vs) :
    ((range cs.rowCount).map (cs.project columns)).map (·.lookup c) =
      (readTo .nil cs.rowCount (vs.map (stand dict vs))).map some := by
  rw [readTo, List.map_map, List.map_map]
  refine map_congr_left fun i _ => ?_
  show (cs.project columns i).lookup c = some _
  rw [lookup_project hc, valueAt, hcol]
  exact congrArg some (hholds.getValueAt i)

variable {batches : List (List (ColumnBatch O))}

theorem Tracks.column (c : String) (h : Tracks dict cs (batches.foldl extend fun _ => none)) :
    ((cs.columns.lookup c).isSome ↔ Named batches c) ∧
      ∀ col, cs.columns.lookup c = some col → col.Holds dict (givenValues batches c) := by
  have hsome := isSome_foldl_extend batches c fun _ => none
  have hvalues := getD_foldl_extend batches c fun _ => none
  have hc := h c
  generalize cs.columns.lookup c = x, batches.foldl extend (fun _ => none) c = y at hc hsome hvalues ⊢
  cases hc with
  | none => exact ⟨by simpa using hsome, nofun⟩
  | some hholds =>
    obtain rfl : _ = givenValues batches c := hvalues
    exact ⟨by simpa using hsome, by rintro _ ⟨⟩; exact hholds⟩

theorem stand_eq_iff : (∀ v, some v ∈ slots batches c → stand dict (givenValues batches c) v = v) ↔
      (dict → Unambiguous batches c) := by
  simp only [some_mem_slots]
  cases dict with
  | false => exact ⟨fun _ h => (nomatch h), fun _ _ _ => rfl⟩
  | true =>
    have hiff := representative_eq_iff goEq_symm goEq_trans (givenValues batches c)
    exact ⟨fun h _ => hiff.1 h, fun h => hiff.2 (h rfl)⟩

/-- `Read` returns the rows as written exactly when some batch gave every requested column, only nil
was given for it after a batch without it, and, with a dictionary, equal values are the same. -/
theorem read_aligned_iff (cfg : Config) (batches : List (List (ColumnBatch O)))
    (columns : List String) (cs : ColumnStore O)
    (h : (newColumnStoreWithConfig cfg).writeAll batches = some cs) :
    (∃ result, cs.read columns = .ok result ∧ Aligned batches columns result) ↔
      columns ≠ [] ∧ ∀ c ∈ columns, Named batches c ∧ NilAfterGap batches c ∧
        (cfg.dictionaryEnabled → Unambiguous batches c) := by
  have hempty : Tracks cfg.dictionaryEnabled (newColumnStoreWithConfig cfg : ColumnStore O)
      fun _ => none := fun _ => .none
  obtain ⟨hlen, hopen, hrows, htracks⟩ := writeAll_spec hempty rfl rfl h
  have hcount : cs.rowCount = (batches.map rowsOf).sum := hrows.trans (Nat.zero_add _)
  -- one column of the result
  have hcolumn : ∀ c ∈ columns, Named batches c →
      (((range cs.rowCount).map (cs.project columns)).map (·.lookup c) =
          (expected batches c).map some ↔
        NilAfterGap batches c ∧ (cfg.dictionaryEnabled → Unambiguous batches c)) := by
    intro c hc hnamed
    obtain ⟨hsome, hholds⟩ := htracks.column c
    obtain ⟨col, hcol⟩ := isSome_iff_exists.1 (hsome.2 hnamed)
    rw [map_lookup_rows hc hcol (hholds col hcol), expected_eq,
      (map_injective_iff.2 (some_injective _)).eq_iff, hcount, ← length_slots hlen,
      ← sunk_slots_iff, ← stand_eq_iff, ← readTo_eq_iff (stand_eq_nil_iff _ _), ← givenValues_eq]
  constructor
  · rintro ⟨result, hread, -, haligned⟩
    obtain ⟨hne, hall, rfl⟩ := (read_eq_ok hopen).1 hread
    refine ⟨hne, fun c hc => ?_⟩
    have hnamed : Named batches c := (htracks.column c).1.1 (hall c hc)
    exact ⟨hnamed, (hcolumn c hc hnamed).1 (haligned c hc)⟩
  · rintro ⟨hne, hall⟩
    refine ⟨_, (read_eq_ok hopen).2 ⟨hne, fun c hc => ?_, rfl⟩, ?_, fun c hc => ?_⟩
    · exact (htracks.column c).1.2 (hall c hc).1
    · simp [hcount]
    · exact (hcolumn c hc (hall c hc).1).2 (hall c hc).2

def columnLeftOut : List (List (ColumnBatch Empty)) :=
  [[⟨"id", [.int 1, .int 2]⟩, ⟨"name", [.string [65], .string [66]]⟩], [⟨"id", [.int 1]⟩]]

theorem read_aligned_columnLeftOut :
    ∃ cs, (newColumnStoreWithConfig defaultConfig).writeAll columnLeftOut = some cs ∧
      ∃ result, cs.read ["id", "name"] = .ok result ∧
        Aligned columnLeftOut ["id", "name"] result := by
  refine ⟨_, rfl, (read_aligned_iff defaultConfig columnLeftOut _ _ rfl).2 ⟨by simp, ?_⟩⟩
  intro c hc
  have hcols : c = "id" ∨ c = "name" := by simpa using hc
  refine ⟨?_, ?_, fun _ => ?_⟩
  · rcases hcols with rfl | rfl <;> exact ⟨_, mem_cons_self, by simp⟩
  · unfold columnLeftOut
    rw [nilAfterGap_cons, nilAfterGap_cons]
    rcases hcols with rfl | rfl
    · exact ⟨fun h => absurd h (by decide), fun h => absurd h (by decide),
        fun _ _ _ h => absurd h (by simp)⟩
    · exact ⟨fun h => absurd h (by decide), fun _ _ _ hv => absurd hv not_mem_nil,
        fun _ _ _ h => absurd h (by simp)⟩
  · unfold Unambiguous
    rcases hcols with rfl | rfl <;> decide

def lateColumn : List (List (ColumnBatch Empty)) :=
  [[⟨"id", [.int 1, .int 2]⟩], [⟨"id", [.int 3]⟩, ⟨"name", [.string [65]]⟩]]

/-- The name given with the third row is read in the first. -/
theorem not_aligned_lateColumn :
    ∃ cs, (newColumnStoreWithConfig defaultConfig).writeAll lateColumn = some cs ∧
      ¬ ∃ result, cs.read ["name"] = .ok result ∧ Aligned lateColumn ["name"] result := by
  refine ⟨_, rfl, ?_⟩
  rintro ⟨result, hread, -, hrows⟩
  cases hread
  exact absurd (hrows "name" mem_cons_self) (by decide)

end ColumnStore

end Solocoder.ColStore
