import Solocoder.ColStore.Proofs.AlignProofs

/-!
# Proofs: a store with and one without dictionaries

Both are given the same batches and are read after each of them.
-/

namespace Solocoder.ColStore

open Lib.Representatives List Option

variable {O : Type} [GoValue O]

/-- A hashable value without a floating-point number in it: `==` is identity. -/
def Value.Discrete : Value O → Prop
  | .float64 _ => False
  | .other o => GoValue.hashable o ∧ ∀ o', GoValue.eq o' o → o' = o
  | _ => True

theorem Value.Discrete.hashable {v : Value O} (h : v.Discrete) : v.hashable := by
  cases v with
  | other o => exact h.1
  | _ => rfl

theorem Value.Discrete.eq_of_goEq {v w : Value O} (h : v.Discrete) (heq : w.goEq v) : w = v := by
  cases v <;> cases w <;> simp only [goEq, Bool.false_eq_true] at heq
  case nil.nil => rfl
  case float64.float64 => exact h.elim
  case other.other => exact congrArg other (h.2 _ heq)
  all_goals exact congrArg _ (beq_iff_eq.1 heq)

theorem Value.Discrete.stand {v : Value O} (h : v.Discrete) (dict : Bool) (vs : List (Value O)) :
    stand dict vs v = v := by
  cases dict with
  | false => rfl
  | true =>
    show representative goEq vs v = v
    cases hfind : vs.find? (·.goEq v) with
    | none => rw [representative, hfind, getD_none]
    | some x =>
      rw [representative_of_find hfind]
      exact h.eq_of_goEq (by simpa using find?_some hfind)

theorem Column.Holds.getValueAt_discrete {dict : Bool} {c : Column O} {vs : List (Value O)}
    (h : c.Holds dict vs) (hvs : ∀ v ∈ vs, v.Discrete) (i : Nat) :
    c.getValueAt i = (vs[i]?).getD .nil := by
  rw [h.getValueAt, map_congr_left fun v hv => (hvs v hv).stand dict vs, List.map_id']

variable {values : List (Value O)}

theorem Column.appendEncoded_done (h : ∀ v ∈ values, v.hashable)
    (c : Column O) : (c.appendEncoded values).2 = true := by
  induction values generalizing c with
  | nil => rfl
  | cons v values ih =>
    obtain ⟨hv, hvalues⟩ := forall_mem_cons.1 h
    unfold appendEncoded encode
    rw [if_pos hv]
    cases c.dict.find? fun entry => entry.1.goEq v with
    | none => exact ih hvalues _
    | some entry => exact ih hvalues _

theorem Column.appendValues_done (h : ∀ v ∈ values, v.hashable)
    (c : Column O) : (c.appendValues values).2 = true := by
  unfold appendValues
  split
  · exact appendEncoded_done h c
  · rfl

namespace ColumnStore

variable {cs d r : ColumnStore O} {batch : List (ColumnBatch O)}

theorem appendColumns_done (hcols : ∀ cb ∈ batch, (cs.columns.lookup cb.name).isSome)
    (h : ∀ cb ∈ batch, ∀ v ∈ cb.values, v.hashable) : (cs.appendColumns batch).2 = true := by
  induction batch generalizing cs with
  | nil => rfl
  | cons cb batch ih =>
    obtain ⟨hcb, hbatch⟩ := forall_mem_cons.1 h
    obtain ⟨hname, hnames⟩ := forall_mem_cons.1 hcols
    obtain ⟨col, hcol⟩ := isSome_iff_exists.1 hname
    unfold appendColumns
    simp only [hcol, col.appendValues_done hcb, if_true]
    refine ih (fun cb' hcb' => ?_) hbatch
    by_cases heq : cb'.name = cb.name
    · rw [heq, AList.lookup_insert]
      rfl
    · rw [AList.lookup_insert_ne heq]
      exact hnames cb' hcb'

/-- The stores with and without dictionaries after the same batches. -/
structure Agree (d r : ColumnStore O) (content : String → Option (List (Value O))) : Prop where
  coded : Tracks true d content
  raw : Tracks false r content
  discrete : ∀ c, ∀ v ∈ (content c).getD [], v.Discrete
  enabled : d.dictEnabled = true
  disabled : r.dictEnabled = false
  rowCount : d.rowCount = r.rowCount
  closed : d.closed = r.closed

variable {content : String → Option (List (Value O))} {dict : Bool}

theorem isSome_lookup (h : Tracks dict cs content) (c : String) :
    (cs.columns.lookup c).isSome = (content c).isSome := by
  have hc := h c
  generalize cs.columns.lookup c = x, content c = y at hc ⊢
  cases hc <;> rfl

theorem appendColumns_ensured (h : Tracks dict cs content) (hdict : cs.dictEnabled = dict)
    (hbatch : ∀ cb ∈ batch, ∀ v ∈ cb.values, v.Discrete) :
    ((batch.foldl ensureColumn cs).appendColumns batch).2 = true := by
  refine appendColumns_done (fun cb hcb => ?_) fun cb hcb v hv => (hbatch cb hcb v hv).hashable
  rw [isSome_lookup (h.ensureColumns hdict batch).2, if_pos (mem_map_of_mem hcb)]
  rfl

section

variable (h : Agree d r content)
include h

theorem Agree.write_cases (hbatch : ∀ cb ∈ batch, ∀ v ∈ cb.values, v.Discrete) :
    (∃ e, d.write batch = (d, .failed e) ∧ r.write batch = (r, .failed e)) ∨
      ∃ d' r', d.write batch = (d', .done) ∧ r.write batch = (r', .done) := by
  have hd := appendColumns_ensured h.coded h.enabled hbatch
  have hr := appendColumns_ensured h.raw h.disabled hbatch
  unfold write
  rw [h.closed]
  split
  · exact .inl ⟨_, rfl, rfl⟩
  · split
    · exact .inl ⟨_, rfl, rfl⟩
    · cases checkBatch batch [] none with
      | error e => exact .inl ⟨_, rfl, rfl⟩
      | ok rows =>
        right
        dsimp only
        split
        · exact ⟨_, _, rfl, rfl⟩
        · generalize (batch.foldl ensureColumn d).appendColumns batch = x at hd ⊢
          generalize (batch.foldl ensureColumn r).appendColumns batch = y at hr ⊢
          obtain ⟨d', _⟩ := x
          obtain ⟨r', _⟩ := y
          cases hd
          cases hr
          exact ⟨_, _, rfl, rfl⟩

theorem Agree.write (hbatch : ∀ cb ∈ batch, ∀ v ∈ cb.values, v.Discrete) :
    (d.write batch).2 = (r.write batch).2 ∧
      ∃ content', Agree (d.write batch).1 (r.write batch).1 content' := by
  obtain ⟨e, hd, hr⟩ | ⟨d', r', hd, hr⟩ := h.write_cases hbatch
  · rw [hd, hr]
    exact ⟨rfl, content, h⟩
  · obtain ⟨-, hcounts, hcoded⟩ := write_done h.coded h.enabled hd
    obtain ⟨-, hcounts', hraw⟩ := write_done h.raw h.disabled hr
    simp only [counts, Prod.mk.injEq] at hcounts hcounts'
    rw [hd, hr]
    refine ⟨rfl, extend content batch, hcoded, hraw, ?_, hcounts.2.2, hcounts'.2.2, ?_,
      hcounts.2.1.trans hcounts'.2.1.symm⟩
    · intro c v hv
      unfold extend at hv
      cases hgiven : given batch c with
      | none =>
        rw [hgiven] at hv
        exact h.discrete c v hv
      | some values =>
        obtain ⟨cb, hcb, rfl⟩ := map_eq_some_iff.1 hgiven
        rw [hgiven] at hv
        rcases mem_append.1 hv with hv | hv
        · exact h.discrete c v hv
        · exact hbatch cb (mem_of_find?_eq_some hcb) v hv
    · rw [hcounts.1, hcounts'.1, h.rowCount]

omit h in
theorem Tracks.valueAt (h : Tracks dict cs content)
    (hdiscrete : ∀ c, ∀ v ∈ (content c).getD [], v.Discrete) (c : String) (i : Nat) :
    cs.valueAt c i = (((content c).getD [])[i]?).getD .nil := by
  have hc := h c
  have hvs := hdiscrete c
  unfold ColumnStore.valueAt
  generalize cs.columns.lookup c = x, content c = y at hc hvs ⊢
  cases hc with
  | none => rfl
  | some hholds => exact hholds.getValueAt_discrete hvs i

theorem Agree.checkColumns (columns : List String) :
    d.checkColumns columns = r.checkColumns columns := by
  induction columns with
  | nil => rfl
  | cons c columns ih =>
    have hc := (isSome_lookup h.coded c).trans (isSome_lookup h.raw c).symm
    unfold ColumnStore.checkColumns
    cases hd : d.columns.lookup c <;> cases hr : r.columns.lookup c <;> simp_all

theorem Agree.checkPredicates (predicates : List (Predicate O)) :
    d.checkPredicates predicates = r.checkPredicates predicates := by
  induction predicates with
  | nil => rfl
  | cons p predicates ih =>
    have hc := (isSome_lookup h.coded p.column).trans (isSome_lookup h.raw p.column).symm
    unfold ColumnStore.checkPredicates
    cases hd : d.columns.lookup p.column <;> cases hr : r.columns.lookup p.column <;> simp_all

theorem Agree.readWithFilter (columns : List String) (predicates : List (Predicate O)) :
    d.readWithFilter columns predicates = r.readWithFilter columns predicates := by
  have hvalue : d.valueAt = r.valueAt := by
    funext c i
    rw [h.coded.valueAt h.discrete, h.raw.valueAt h.discrete]
  have hproject : d.project = r.project := by
    funext columns i
    rw [project, hvalue, project]
  unfold ColumnStore.readWithFilter
  simp only [h.closed, h.checkColumns, h.checkPredicates, h.rowCount, evaluatePredicates, hvalue,
    hproject]

/-- A sequence of writes, with what each of them returns. -/
def writes : ColumnStore O → List (List (ColumnBatch O)) → ColumnStore O × List Outcome
  | cs, [] => (cs, [])
  | cs, batch :: batches =>
    let (cs', outcome) := cs.write batch
    let (cs'', outcomes) := cs'.writes batches
    (cs'', outcome :: outcomes)

theorem Agree.writes {batches : List (List (ColumnBatch O))}
    (hbatches : ∀ batch ∈ batches, ∀ cb ∈ batch, ∀ v ∈ cb.values, v.Discrete) :
    (d.writes batches).2 = (r.writes batches).2 ∧
      ∃ content', Agree (d.writes batches).1 (r.writes batches).1 content' := by
  induction batches generalizing d r content with
  | nil => exact ⟨rfl, content, h⟩
  | cons batch batches ih =>
    obtain ⟨hbatch, hrest⟩ := forall_mem_cons.1 hbatches
    obtain ⟨houtcome, content', hagree⟩ := h.write hbatch
    obtain ⟨houtcomes, hlast⟩ := ih hagree hrest
    exact ⟨congrArg₂ cons houtcome houtcomes, hlast⟩

end

/-- Whatever is written, a store with dictionaries answers as one without them. -/
theorem dictionary_transparent (batches : List (List (ColumnBatch O)))
    (h : ∀ batch ∈ batches, ∀ cb ∈ batch, ∀ v ∈ cb.values, v.Discrete) (columns : List String)
    (predicates : List (Predicate O)) :
    ((newColumnStoreWithConfig ⟨true⟩).writes batches).2 =
        ((newColumnStoreWithConfig ⟨false⟩).writes batches).2 ∧
      ((newColumnStoreWithConfig ⟨true⟩).writes batches).1.readWithFilter columns predicates =
        ((newColumnStoreWithConfig ⟨false⟩).writes batches).1.readWithFilter columns predicates := by
  have hnew : Agree (newColumnStoreWithConfig ⟨true⟩ : ColumnStore O)
      (newColumnStoreWithConfig ⟨false⟩) fun _ => none :=
    ⟨fun _ => .none, fun _ => .none, fun _ _ hv => absurd hv not_mem_nil, rfl, rfl, rfl, rfl⟩
  obtain ⟨houtcomes, content, hagree⟩ := hnew.writes h
  exact ⟨houtcomes, hagree.readWithFilter columns predicates⟩

def repeatedName : List (List (ColumnBatch Empty)) :=
  [[⟨"id", [.int 1, .int 2]⟩, ⟨"name", [.string [65], .string [66]]⟩],
    [⟨"id", [.int 3]⟩, ⟨"name", [.string [65]]⟩]]

def nameIsA : List (Predicate Empty) := [⟨"name", .eq, .string [65], []⟩]

theorem dictionary_transparent_repeatedName :
    let d := ((newColumnStoreWithConfig ⟨true⟩).writes repeatedName).1
    let r := ((newColumnStoreWithConfig ⟨false⟩).writes repeatedName).1
    d.readWithFilter ["id"] nameIsA = r.readWithFilter ["id"] nameIsA ∧
      (r.readWithFilter ["id"] nameIsA).toOption.map (·.totalMatched) = some 2 := by
  refine ⟨(dictionary_transparent repeatedName ?_ ["id"] nameIsA).2, by decide⟩
  simp [repeatedName, Value.Discrete]

end ColumnStore

end Solocoder.ColStore
