import CsdWorker.Lib.Connective
import CsdWorker.SharedSchema

/-! # The filter list

`filtering` with its one `column_offset_list` for all rows, on conditions that are joined by AND only or by OR only.
-/

namespace CsdWorker

open Memory

set_option autoImplicit false

/-- The offsets of the rows and, behind them, the end of the last one. -/
structure Data.WellFormed (d : Data) : Prop where
  length : d.rowOffset.length = d.rowCount + 1
  monotone : d.rowOffset.Pairwise (· ≤ ·)
  last : d.rowOffset.getLast? = some d.dataLength

namespace Data

variable {d : Data}

theorem Sealed.wellFormed {rows : List Bytes} (h : d.Sealed rows) : d.WellFormed where
  length := by rw [h.rowOffset, List.length_append, length_rowStarts, h.rowCount, List.length_singleton]
  monotone := h.monotone
  last := by rw [h.rowOffset, List.getLast?_concat, h.dataLength]

theorem WellFormed.getD_le_succ (h : d.WellFormed) {i : Nat} (hi : i < d.rowCount) :
    d.rowOffset.getD i 0 ≤ d.rowOffset.getD (i + 1) 0 := by
  have hLength := h.length
  rw [List.getD_eq_getElem _ _ (by omega), List.getD_eq_getElem _ _ (by omega)]
  exact List.pairwise_iff_getElem.mp h.monotone i (i + 1) _ _ (Nat.lt_succ_self i)

/-- The first rows fill the buffer from the first offset up to theirs. -/
theorem WellFormed.length_rows (h : d.WellFormed) {n : Nat} (hn : n ≤ d.rowCount) :
    d.rowOffset.getD 0 0 + ((List.range n).map d.rowAt).flatten.length = d.rowOffset.getD n 0 := by
  induction n with
  | zero => rfl
  | succ n ih =>
    have hStep := h.getD_le_succ hn
    have hRest := ih (Nat.le_of_succ_le hn)
    rw [List.range_succ, List.map_append, List.flatten_append, List.length_append, List.map_singleton,
      List.flatten_singleton, rowAt, length_read]
    omega

theorem WellFormed.length_rows_le (h : d.WellFormed) : d.rows.flatten.length ≤ d.dataLength := by
  have hRows := h.length_rows (le_refl d.rowCount)
  have hLast : d.rowOffset.getD d.rowCount 0 = d.dataLength := by
    have hLast := h.last
    rw [List.getLast?_eq_getElem?, h.length, Nat.add_sub_cancel] at hLast
    rw [List.getD_eq_getElem?_getD, hLast, Option.getD_some]
  rw [rows]
  omega

end Data

namespace Filter

/-- What the evaluation of a row finds that nobody has set: the members of its values, and the bytes behind its copy of
the row. -/
structure Surroundings where
  unset : KValue
  behind : Mem

def Surroundings.memory (around : Surroundings) (row : Bytes) : Mem := write around.behind 0 row

/-- What becomes of `column_offset_list` for a row: `calcul_column_offset` clears it first. -/
def nextColumnOffsetList (memory : Mem) (rowLength : Nat) (schemaInfo : SchemaInfo) (columnOffsetList : List Int) :
    Option (List Int) :=
  if schemaInfo.hasVarChar then do
    let offsets ← calculColumnOffset memory schemaInfo
    pure (offsets ++ [(rowLength : Int)])
  else some columnOffsetList

/-- The offsets in a row that is the first one. -/
def rowOffsets (around : Surroundings) (row : Bytes) (schemaInfo : SchemaInfo) : Option (List Int) :=
  nextColumnOffsetList (around.memory row) row.length schemaInfo schemaInfo.columnOffset

/-- A list that no row replaces is that of the schema. -/
def Reusable (schemaInfo : SchemaInfo) (columnOffsetList : List Int) : Prop :=
  schemaInfo.hasVarChar = false → columnOffsetList = schemaInfo.columnOffset

section Offsets
variable {around : Surroundings} {row : Bytes} {s t : SchemaInfo} {offsets : List Int}

theorem nextColumnOffsetList_of_equiv (memory : Mem) (rowLength : Nat) (offsets : List Int) (h : s ≈ t) :
    nextColumnOffsetList memory rowLength s offsets = nextColumnOffsetList memory rowLength t offsets := by
  have hFlag : s.hasVarChar = t.hasVarChar := (congrArg SchemaInfo.hasVarChar h.1 :)
  rw [nextColumnOffsetList, nextColumnOffsetList, calculColumnOffset_of_equiv _ h, hFlag]

theorem nextColumnOffsetList_eq (around : Surroundings) (row : Bytes) (h : Reusable s offsets) :
    nextColumnOffsetList (around.memory row) row.length s offsets = rowOffsets around row s := by
  rw [rowOffsets, nextColumnOffsetList, nextColumnOffsetList]
  split
  · rfl
  · rename_i hNone
    rw [h (Bool.eq_false_of_not_eq_true hNone)]

theorem reusable_rowOffsets (h : rowOffsets around row s = some offsets) : Reusable s offsets := by
  intro hNone
  rw [rowOffsets, nextColumnOffsetList, hNone] at h
  exact (Option.some_inj.mp h).symm

theorem memory_zeroed (u : KValue) (row : Bytes) : (Surroundings.mk u zeroed).memory row = ofBytes row := by
  funext i
  rw [Surroundings.memory, write, if_pos (Nat.zero_le i), Nat.sub_zero, ofBytes, List.getD_eq_getElem?_getD]
  rfl

theorem rowOffsets_zeroed (u : KValue) (row : Bytes) (s : SchemaInfo) :
    rowOffsets ⟨u, zeroed⟩ row s = columnOffsetList row s := by
  rw [rowOffsets, nextColumnOffsetList, columnOffsetList, memory_zeroed]

end Offsets

def keepRow (filtered : Data) (row : Bytes) : Data :=
  { filtered.pushRow row with filteredRowCount := filtered.filteredRowCount + 1 }

/-- `filter_result` before the first row. -/
def emptied (data : Data) : Data :=
  { Data.clear with scannedRowCount := data.scannedRowCount, currentBlockCount := data.currentBlockCount }

section Reused
variable (around : Nat → Surroundings) (depth : Nat) (snippet : Snippet)

/-- The loop of `filtering` from row `i` on, with the schema and the list of offsets passed on from row to row. -/
def filterRowsReused : Nat → List Bytes → List Int → Data → Eval Data
  | _, [], _, filtered => pure filtered
  | i, row :: rows, columnOffsetList, filtered => do
    let schemaInfo ← get
    let columnOffsetList ← nextColumnOffsetList ((around i).memory row) row.length schemaInfo columnOffsetList
    let passed ← filterLoop (around i).unset ((around i).memory row) depth columnOffsetList
      snippet.queryInfo.filtering true
    filterRowsReused (i + 1) rows columnOffsetList (if passed then keepRow filtered row else filtered)

def filteringReused (result : CsdResult) : Option CsdResult := do
  let snippet ← result.snippet
  let filtered ← (filterRowsReused around depth snippet 0 result.data.rows snippet.schemaInfo.columnOffset
    (emptied result.data)).run' snippet.schemaInfo
  pure { snippet := some snippet, data := filtered.pushEnd }

/-- What the conditions say of a row that is the first one. -/
def rowResult (around : Surroundings) (row : Bytes) : Option Bool := do
  let offsets ← rowOffsets around row snippet.schemaInfo
  (filterLoop around.unset (around.memory row) depth offsets snippet.queryInfo.filtering true).run' snippet.schemaInfo

theorem query_filterRowsReused (i : Nat) (rows : List Bytes) (offsets : List Int) (filtered : Data) :
    Query (filterRowsReused around depth snippet i rows offsets filtered) fun _ => True := by
  induction rows generalizing i offsets filtered with
  | nil => exact Query.pure trivial
  | cons row rows ih =>
    rw [filterRowsReused]
    refine Query.get_bind (fun s => ?_) fun s t h => by rw [nextColumnOffsetList_of_equiv _ _ _ h]
    refine Query.lift_bind fun offsets _ => ?_
    exact Query.bind (query_filterLoop _ _ offsets depth _ true) fun passed _ => ih _ _ _

/-- The loop that keeps the rows with the answer true. -/
def keepRows (answer : Nat → Bytes → Option Bool) : Nat → List Bytes → Data → Option Data
  | _, [], filtered => some filtered
  | i, row :: rows, filtered => do
    let passed ← answer i row
    keepRows answer (i + 1) rows (if passed then keepRow filtered row else filtered)

/-- The names that a row inserts and the offsets that it leaves behind change nothing for the next ones. -/
theorem filterRowsReused_run' (i : Nat) (rows : List Bytes) {offsets : List Int} (filtered : Data) {s : SchemaInfo}
    (h : s ≈ snippet.schemaInfo) (hOffsets : Reusable snippet.schemaInfo offsets) :
    (filterRowsReused around depth snippet i rows offsets filtered).run' s =
      keepRows (fun i => rowResult depth snippet (around i)) i rows filtered := by
  induction rows generalizing i offsets filtered with
  | nil => rfl
  | cons row rows ih =>
    rw [filterRowsReused, keepRows, rowResult, run'_get_bind, nextColumnOffsetList_of_equiv _ _ _ h,
      nextColumnOffsetList_eq _ _ hOffsets, run'_lift_bind, Option.bind_eq_bind, Option.bind_eq_bind, Option.bind_assoc]
    refine Option.bind_congr fun offsets hRow => ?_
    have hLoop :=
      query_filterLoop (around i).unset ((around i).memory row) offsets depth snippet.queryInfo.filtering true
    rw [Query.run'_bind hLoop fun passed _ => query_filterRowsReused around depth snippet _ rows _ _, hLoop.same h]
    exact Option.bind_congr fun passed _ => ih _ _ (reusable_rowOffsets hRow)

end Reused

section Kept
variable (answer : Nat → Bytes → Option Bool)

/-- The rows with the answer true, in their order. -/
def keptRows (i : Nat) (rows : List Bytes) : List Bytes :=
  ((rows.zipIdx i).filter fun entry => answer entry.2 entry.1 = some true).map Prod.fst

theorem keepRows_isSome_iff (i : Nat) (rows : List Bytes) (d : Data) :
    (keepRows answer i rows d).isSome ↔ ∀ entry ∈ rows.zipIdx i, (answer entry.2 entry.1).isSome := by
  induction rows generalizing i d with
  | nil => exact iff_of_true rfl fun entry hEntry => by cases hEntry
  | cons row rows ih =>
    rw [keepRows, List.zipIdx_cons, List.forall_mem_cons]
    cases answer i row with
    | none => simp
    | some passed =>
      rw [Option.bind_eq_bind, Option.bind_some, ih]
      exact (and_iff_right rfl).symm

theorem keepRows_eq_some {i : Nat} {rows : List Bytes} {d filtered : Data}
    (h : keepRows answer i rows d = some filtered) :
    filtered = (keptRows answer i rows).foldl keepRow d := by
  induction rows generalizing i d with
  | nil => exact (Option.some_inj.mp h).symm
  | cons row rows ih =>
    obtain ⟨passed, hPassed, hRest⟩ := Option.bind_eq_some_iff.mp h
    rw [ih hRest, keptRows, keptRows, List.zipIdx_cons]
    cases passed with
    | true => simp [hPassed]
    | false => simp [hPassed]

theorem keptRows_sublist (i : Nat) (rows : List Bytes) : (keptRows answer i rows).Sublist rows := by
  have hSublist := (List.filter_sublist (p := fun entry => decide (answer entry.2 entry.1 = some true))
    (l := rows.zipIdx i)).map Prod.fst
  rwa [List.zipIdx_map_fst] at hSublist

theorem keptRows_const (answer : Bytes → Option Bool) (i : Nat) (rows : List Bytes) :
    keptRows (fun _ => answer) i rows = rows.filter fun row => answer row = some true := by
  have hFilter := List.filter_map (f := Prod.fst) (l := rows.zipIdx i) (p := fun row => decide (answer row = some true))
  rw [List.zipIdx_map_fst] at hFilter
  exact hFilter.symm

theorem filterRows_eq_keepRows (u : KValue) (depth : Nat) (snippet : Snippet) (i : Nat) (rows : List Bytes) (d : Data) :
    filterRows u depth snippet rows d = keepRows (fun _ => rowPasses u depth snippet) i rows d := by
  induction rows generalizing i d with
  | nil => rfl
  | cons row rows ih =>
    rw [filterRows, keepRows]
    exact Option.bind_congr fun passed _ => ih _ _

end Kept

def comparisons : List KetiOperType :=
  [.ge, .le, .gt, .lt, .eq, .ne, .like, .notLike, .between, .inList, .notIn, .is, .isNot]

structure Condition where
  filtering : Filtering
  compares : filtering.operator ∈ comparisons

/-- `first op c₂ op …`; the entry of a connective has operands that are never looked at. -/
structure FilterList where
  connective : Connective
  first : Condition
  rest : List ((Operand × Operand) × Condition)

def connectiveOperator : Connective → KetiOperType
  | .and => .and
  | .or => .or

def links (c : Connective) (rest : List ((Operand × Operand) × Condition)) : List Filtering :=
  rest.flatMap fun link => [⟨link.1.1, connectiveOperator c, link.1.2⟩, link.2.filtering]

namespace FilterList

def filterings (l : FilterList) : List Filtering := l.first.filtering :: links l.connective l.rest

def conditions (l : FilterList) : List Condition := l.first :: l.rest.map Prod.snd

end FilterList

section Conditions
variable (u : KValue) (depth : Nat)

/-- The comparison that the operator of the entry selects. -/
def compare (row : Mem) (filtering : Filtering) (offsets : List Int) : Eval Bool :=
  match filtering.operator with
  | .ge => compareGe u row filtering offsets
  | .le => compareLe u row filtering offsets
  | .gt => compareGt u row filtering offsets
  | .lt => compareLt u row filtering offsets
  | .eq => compareEq u row filtering offsets
  | .ne => compareNe u row filtering offsets
  | .like => compareLike u row filtering offsets
  | .notLike => compareNotLike u row filtering offsets
  | .between => compareBetween u row filtering offsets
  | .inList => compareIn u row filtering offsets
  | .notIn => compareNotIn depth filtering offsets
  | .is => compareIs u row filtering offsets
  | .isNot => compareIsNot u row filtering offsets
  | .and | .or | .undefined _ => failure

theorem filterLoop_condition (row : Mem) (offsets : List Int) (c : Condition) (rest : List Filtering) (passed : Bool) :
    filterLoop u row depth offsets (c.filtering :: rest) passed =
      compare u depth row c.filtering offsets >>= filterLoop u row depth offsets rest := by
  have hCompares := c.compares
  rw [filterLoop, compare]
  cases hOperator : c.filtering.operator with
  | and | or | undefined =>
    rw [hOperator] at hCompares
    simp [comparisons] at hCompares
  | _ => rfl

theorem query_compare (row : Mem) (filtering : Filtering) (offsets : List Int) :
    Query (compare u depth row filtering offsets) fun _ => True := by
  rw [compare]
  cases filtering.operator with
  | ge | le | gt | lt | eq => exact query_compareBy u row filtering offsets _ _ _ _
  | ne => exact query_compareNe u row filtering offsets
  | like => exact query_compareLike u row filtering offsets
  | notLike => exact query_compareNotLike u row filtering offsets
  | between => exact query_compareBetween u row filtering offsets
  | inList => exact query_compareIn u row filtering offsets
  | notIn => exact query_compareNotIn filtering offsets depth
  | is => exact query_compareIs u row filtering offsets
  | isNot => exact query_compareIsNot u row filtering offsets
  | and | or | undefined => exact Query.failure

/-- What the condition says of a row, whichever rows came before it. -/
def Condition.result (schemaInfo : SchemaInfo) (around : Surroundings) (row : Bytes) (c : Condition) : Option Bool := do
  let offsets ← rowOffsets around row schemaInfo
  (compare around.unset depth (around.memory row) c.filtering offsets).run' schemaInfo

def FilterList.results (l : FilterList) (schemaInfo : SchemaInfo) (around : Surroundings) (row : Bytes) :
    List (Option Bool) :=
  l.conditions.map (Condition.result depth schemaInfo around row)

/-- A connective ends the loop on the result that decides. -/
theorem filterLoop_link (row : Mem) (offsets : List Int) (c : Connective) (lv rv : Operand) (rest : List Filtering)
    (passed : Bool) :
    filterLoop u row depth offsets (⟨lv, connectiveOperator c, rv⟩ :: rest) passed =
      if passed = c.decisive then pure passed else filterLoop u row depth offsets rest passed := by
  cases c with
  | and => cases passed <;> rfl
  | or => cases passed <;> rfl

theorem filterLoop_links (row : Mem) (offsets : List Int) (s : SchemaInfo) (c : Connective) (first : Condition)
    (rest : List ((Operand × Operand) × Condition)) (passed : Bool) :
    (filterLoop u row depth offsets (first.filtering :: links c rest) passed).run' s =
      c.join ((first :: rest.map Prod.snd).map fun condition =>
        (compare u depth row condition.filtering offsets).run' s) := by
  induction rest generalizing first passed with
  | nil =>
    rw [filterLoop_condition, List.map_nil, List.map_singleton, Connective.join_singleton]
    exact congrArg (fun m => StateT.run' m s) (bind_pure _)
  | cons link rest ih =>
    rw [filterLoop_condition, Query.run'_bind (query_compare u depth row first.filtering offsets) fun passed _ =>
      query_filterLoop u row offsets depth _ passed]
    refine Option.bind_congr fun b _ => ?_
    rw [links, List.flatMap_cons, List.cons_append, filterLoop_link]
    split
    · rfl
    · exact ih link.2 b

theorem rowResult_eq_join (snippet : Snippet) (l : FilterList) (h : snippet.queryInfo.filtering = l.filterings)
    (around : Surroundings) (row : Bytes) :
    rowResult depth snippet around row = l.connective.join (l.results depth snippet.schemaInfo around row) := by
  rw [rowResult, h, FilterList.filterings, FilterList.results, FilterList.conditions]
  cases hOffsets : rowOffsets around row snippet.schemaInfo with
  | none => simp [Condition.result, hOffsets, Connective.join]
  | some offsets =>
    have hResult : ∀ c : Condition, Condition.result depth snippet.schemaInfo around row c =
        (compare around.unset depth (around.memory row) c.filtering offsets).run' snippet.schemaInfo := by
      intro c
      rw [Condition.result, hOffsets, Option.bind_eq_bind, Option.bind_some]
    rw [Option.bind_eq_bind, Option.bind_some, filterLoop_links, List.map_congr_left fun c _ => hResult c]

end Conditions

section Rows
variable {u : KValue} {depth : Nat} {snippet : Snippet} {result : CsdResult}

theorem foldl_keepRow_counts (kept : List Bytes) (d : Data) :
    (kept.foldl keepRow d).scannedRowCount = d.scannedRowCount ∧
      (kept.foldl keepRow d).currentBlockCount = d.currentBlockCount ∧
      (kept.foldl keepRow d).filteredRowCount + d.rowCount = (kept.foldl keepRow d).rowCount + d.filteredRowCount := by
  induction kept generalizing d with
  | nil => exact ⟨rfl, rfl, Nat.add_comm _ _⟩
  | cons row kept ih =>
    obtain ⟨hScanned, hCurrent, hRows⟩ := ih (keepRow d row)
    have hPush : (keepRow d row).rowCount = d.rowCount + 1 := rfl
    have hKeep : (keepRow d row).filteredRowCount = d.filteredRowCount + 1 := rfl
    refine ⟨hScanned, hCurrent, ?_⟩
    rw [List.foldl_cons]
    omega

theorem foldl_keepRow_holds (kept : List Bytes) {rows : List Bytes} {d : Data} (h : d.Holds rows) :
    (kept.foldl keepRow d).Holds (rows ++ kept) := by
  induction kept generalizing rows d with
  | nil => rwa [List.append_nil]
  | cons row kept ih =>
    have hPush := h.pushRow row
    have hRest := ih (d := keepRow d row) ⟨hPush.rowOffset, hPush.dataLength, hPush.rowCount, hPush.bytes⟩
    rwa [List.append_assoc] at hRest

theorem filterRows_eq_some {rows : List Bytes} (h : ∀ row ∈ rows, (rowPasses u depth snippet row).isSome) (d : Data) :
    filterRows u depth snippet rows d = some ((rows.filter (passes u depth snippet)).foldl keepRow d) := by
  obtain ⟨filtered, hFiltered⟩ := Option.isSome_iff_exists.mp (filterRows_isSome d h)
  rw [hFiltered]
  rw [filterRows_eq_keepRows u depth snippet 0] at hFiltered
  rw [keepRows_eq_some _ hFiltered, keptRows_const]
  rfl

theorem filtering_eq_some (hSnippet : result.snippet = some snippet)
    (h : ∀ row ∈ result.data.rows, (rowPasses u depth snippet row).isSome) :
    filtering u depth result = some ⟨some snippet,
      ((result.data.rows.filter (passes u depth snippet)).foldl keepRow (emptied result.data)).pushEnd⟩ := by
  rw [filtering, hSnippet, Option.bind_eq_bind, Option.bind_some, filterRows_eq_some h]
  rfl

theorem filtering_isSome_iff (hSnippet : result.snippet = some snippet) :
    (filtering u depth result).isSome ↔ ∀ row ∈ result.data.rows, (rowPasses u depth snippet row).isSome := by
  constructor
  · intro hSome
    obtain ⟨filtered, hFiltered⟩ := Option.isSome_iff_exists.mp hSome
    exact (filtering_sealed hSnippet hFiltered).2.2.2
  · intro hRows
    rw [filtering_eq_some hSnippet hRows]
    rfl

/-- With the same surroundings for all rows and zeros behind them. -/
theorem filteringReused_zeroed (u : KValue) (depth : Nat) (result : CsdResult) :
    filteringReused (fun _ => ⟨u, zeroed⟩) depth result = filtering u depth result := by
  have hResult : ∀ snippet row, rowResult depth snippet ⟨u, zeroed⟩ row = rowPasses u depth snippet row := by
    intro snippet row
    rw [rowResult, rowPasses, rowOffsets_zeroed, memory_zeroed]
  refine Option.bind_congr fun snippet _ => ?_
  rw [filterRowsReused_run' _ depth snippet 0 _ _ (Setoid.refl _) fun _ => rfl,
    filterRows_eq_keepRows u depth snippet 0, funext (hResult snippet)]
  rfl

end Rows

/-- `filtered` is `result` with the rows that are `kept`. -/
structure PassesOn (result filtered : CsdResult) (kept : List Bytes) : Prop where
  snippet : filtered.snippet = result.snippet
  rows : filtered.data.rows = kept
  wellFormed : filtered.data.WellFormed
  filteredRowCount : filtered.data.filteredRowCount = filtered.data.rowCount
  scannedRowCount : filtered.data.scannedRowCount = result.data.scannedRowCount
  currentBlockCount : filtered.data.currentBlockCount = result.data.currentBlockCount
  fits : filtered.data.dataLength ≤ result.data.dataLength

theorem filteringReused_eq_keepRows (around : Nat → Surroundings) (depth : Nat) {result : CsdResult} {snippet : Snippet}
    (hSnippet : result.snippet = some snippet) :
    filteringReused around depth result =
      (keepRows (fun i => rowResult depth snippet (around i)) 0 result.data.rows (emptied result.data)).map
        fun filtered => ⟨some snippet, filtered.pushEnd⟩ := by
  rw [filteringReused, hSnippet, Option.bind_eq_bind, Option.bind_some,
    filterRowsReused_run' around depth snippet 0 _ _ (Setoid.refl _) fun _ => rfl]
  exact Option.map_eq_bind.symm

/-- Some rows of a batch, kept one after the other behind nothing, are passed on. -/
theorem passesOn_foldl_keepRow {result : CsdResult} {snippet : Snippet} (hSnippet : result.snippet = some snippet)
    (hForm : result.data.WellFormed) {rows : List Bytes} (hSublist : rows.Sublist result.data.rows) :
    PassesOn result ⟨some snippet, (rows.foldl keepRow (emptied result.data)).pushEnd⟩ rows := by
  obtain ⟨hScanned, hCurrent, hCount⟩ := foldl_keepRow_counts rows (emptied result.data)
  have hEmpty : (emptied result.data).Holds [] := ⟨rfl, rfl, rfl, rfl⟩
  have hSealed := (foldl_keepRow_holds rows hEmpty).pushEnd
  have hShorter := hSublist.flatten.length_le
  exact
    { snippet := hSnippet.symm
      rows := hSealed.rows_eq
      wellFormed := hSealed.wellFormed
      filteredRowCount := hCount
      scannedRowCount := hScanned
      currentBlockCount := hCurrent
      fits := hSealed.dataLength.trans_le (hShorter.trans hForm.length_rows_le) }

/-- The filter has a result exactly when the conditions that are looked at have one for every row, and then it passes
on the rows of which the conditions hold. -/
theorem filteringReused_passesOn (around : Nat → Surroundings) (depth : Nat) (result : CsdResult) (snippet : Snippet)
    (l : FilterList) (hSnippet : result.snippet = some snippet) (hList : snippet.queryInfo.filtering = l.filterings)
    (hForm : result.data.WellFormed) :
    ((filteringReused around depth result).isSome ↔ ∀ entry ∈ result.data.rows.zipIdx,
        (l.connective.join (l.results depth snippet.schemaInfo (around entry.2) entry.1)).isSome) ∧
      (∀ filtered, filteringReused around depth result = some filtered →
        PassesOn result filtered ((result.data.rows.zipIdx.filter fun entry =>
          l.connective.Holds (l.results depth snippet.schemaInfo (around entry.2) entry.1)).map Prod.fst)) ∧
      ∀ u, filteringReused (fun _ => ⟨u, zeroed⟩) depth result = filtering u depth result := by
  let answers : Nat → Bytes → Option Bool := fun i => rowResult depth snippet (around i)
  have hJoin : ∀ i row, answers i row = l.connective.join (l.results depth snippet.schemaInfo (around i) row) :=
    fun i row => rowResult_eq_join depth snippet l hList (around i) row
  have hReused : filteringReused around depth result =
      (keepRows answers 0 result.data.rows (emptied result.data)).map fun filtered =>
        ⟨some snippet, filtered.pushEnd⟩ := filteringReused_eq_keepRows around depth hSnippet
  refine ⟨?_, ?_, fun u => filteringReused_zeroed u depth result⟩
  · rw [hReused, Option.isSome_map, keepRows_isSome_iff]
    simp only [hJoin]
  · intro filtered hFiltered
    rw [hReused] at hFiltered
    obtain ⟨data, hKeep, rfl⟩ := Option.map_eq_some_iff.mp hFiltered
    have hAnswers := (keepRows_isSome_iff answers 0 _ _).mp (Option.isSome_of_eq_some hKeep)
    have hKept : keptRows answers 0 result.data.rows = (result.data.rows.zipIdx.filter fun entry =>
        l.connective.Holds (l.results depth snippet.schemaInfo (around entry.2) entry.1)).map Prod.fst := by
      refine congrArg _ (List.filter_congr fun entry hEntry => decide_eq_decide.mpr ?_)
      have hAnswer := hAnswers entry hEntry
      rw [hJoin] at hAnswer ⊢
      exact Connective.join_eq_true_iff_holds hAnswer
    rw [← hKept]
    obtain rfl := keepRows_eq_some answers hKeep
    exact passesOn_foldl_keepRow hSnippet hForm (keptRows_sublist answers 0 result.data.rows)

def quantitySchema : SchemaInfo :=
  { columnName := [bytesOf "quantity"], columnOffset := [0, 4], columnLength := [4], columnType := [.int32],
    columnIndexMap := [(bytesOf "quantity", 0)], pkColumn := [], tableIndexNumber := 0, hasVarChar := false }

def quantityCompares (operator : KetiOperType) (literal : String) : Filtering :=
  ⟨⟨[.column], [bytesOf "quantity"]⟩, operator, ⟨[.int32], [bytesOf literal]⟩⟩

/-- `quantity > 4 AND quantity < 7`. -/
def quantityFilter : FilterList :=
  ⟨.and, ⟨quantityCompares .gt "4", by decide⟩, [((⟨[], []⟩, ⟨[], []⟩), ⟨quantityCompares .lt "7", by decide⟩)]⟩

def quantitySnippet : Snippet :=
  { queryId := 1, workId := 0, queryInfo := { filtering := quantityFilter.filterings, projection := [] },
    schemaInfo := quantitySchema, blockInfo := ⟨[], []⟩, resultInfo := { csdBlockCount := 1 } }

def quantityResult : CsdResult :=
  ⟨some quantitySnippet, ((Data.clear.pushRow [9, 0, 0, 0]).pushRow [5, 0, 0, 0]).pushEnd⟩

def nothingSet : Surroundings := ⟨KValue.zero, zeroed⟩

theorem quantity_five_kept :
    ∃ filtered, filteringReused (fun _ => nothingSet) 0 quantityResult = some filtered ∧
      filtered.data.rows = [[5, 0, 0, 0]] := by
  obtain ⟨hSome, hPasses, -⟩ := filteringReused_passesOn (fun _ => nothingSet) 0 quantityResult quantitySnippet
    quantityFilter rfl rfl ⟨rfl, by decide, rfl⟩
  obtain ⟨filtered, hFiltered⟩ := Option.isSome_iff_exists.mp (hSome.mpr (by decide))
  exact ⟨filtered, hFiltered, (hPasses filtered hFiltered).rows.trans (by decide)⟩

end Filter

end CsdWorker
