import CsdWorker.Lib.Occurrence
import CsdWorker.RawDataHandler

/-! # The filter layer

`filter.cc`. A comparison that does not return (an exception, a crash, endless recursion) is
`none`; `compare_not_in` calls itself, so it takes the depth of calls that is allowed.
-/

namespace CsdWorker.Filter

open Memory Endian Occurrence

set_option autoImplicit false

section Comparisons
variable (u : KValue) (row : Mem)

/-- The shared body of the ordering comparisons: the type of the left value selects the member
that is compared, on both sides. -/
def compareBy (int : Int → Int → Bool) (float : Float32 → Float32 → Bool) (double : Float → Float → Bool)
    (string : Bytes → Bytes → Bool) (filtering : Filtering) (offsets : List Int) : Eval Bool := do
  let lv ← calculOperandValue u row filtering.lv offsets none
  let rv ← calculOperandValue u row filtering.rv offsets none
  match lv.type_ with
  | .int32 => pure (int lv.int_ rv.int_)
  | .int64 | .decimal => pure (int lv.int64_ rv.int64_)
  | .float32 => pure (float lv.float_ rv.float_)
  | .double => pure (double lv.double_ rv.double_)
  | .string => pure (string lv.string_ rv.string_)
  | _ => pure false

def compareGe (filtering : Filtering) (offsets : List Int) : Eval Bool :=
  compareBy u row (fun a b => a ≥ b) (fun a b => a ≥ b) (fun a b => a ≥ b) (fun a b => a ≥ b) filtering offsets

def compareLe (filtering : Filtering) (offsets : List Int) : Eval Bool :=
  compareBy u row (fun a b => a ≤ b) (fun a b => a ≤ b) (fun a b => a ≤ b) (fun a b => a ≤ b) filtering offsets

def compareGt (filtering : Filtering) (offsets : List Int) : Eval Bool :=
  compareBy u row (fun a b => a > b) (fun a b => a > b) (fun a b => a > b) (fun a b => a > b) filtering offsets

def compareLt (filtering : Filtering) (offsets : List Int) : Eval Bool :=
  compareBy u row (fun a b => a < b) (fun a b => a < b) (fun a b => a < b) (fun a b => a < b) filtering offsets

def compareEq (filtering : Filtering) (offsets : List Int) : Eval Bool :=
  compareBy u row (fun a b => a == b) (fun a b => a == b) (fun a b => a == b) (fun a b => a == b)
    filtering offsets

def compareNe (filtering : Filtering) (offsets : List Int) : Eval Bool := do
  let passed ← compareEq u row filtering offsets
  pure !passed

/-- The loop over the parts of the pattern, `findFrom` being `std::string::find`. The start offset
accumulates. -/
def likeParts (s : Bytes) : List Bytes → Nat → Bool
  | [], _ => true
  | target :: parts, startOffset =>
    match findFrom s target startOffset with
    | none => false
    | some offset => likeParts s parts (startOffset + (target.length + offset))

/-- `compare_like` on the two strings. Indexing an empty `parts` is `none`. -/
def like (s pattern : Bytes) : Option Bool :=
  let parts := split pattern 37
  if likeParts s parts 0 then do
    let prefixOk ←
      if pattern.getD 0 0 ≠ 37 then do
        let first ← parts.head?
        pure (decide (findFrom s first 0 = some 0))
      else pure true
    let suffixOk ←
      if pattern.getD (pattern.length - 1) 0 ≠ 37 then do
        let last ← parts.getLast?
        pure (decide (findFrom s last 0 = some (s.length - last.length)))
      else pure true
    pure (prefixOk && suffixOk)
  else some false

def compareLike (filtering : Filtering) (offsets : List Int) : Eval Bool := do
  let lv ← calculOperandValue u row filtering.lv offsets none
  let rv ← calculOperandValue u row filtering.rv offsets none
  like lv.string_ rv.string_

def compareNotLike (filtering : Filtering) (offsets : List Int) : Eval Bool := do
  let passed ← compareLike u row filtering offsets
  pure !passed

/-- `passed` is declared without a value, so an unlisted type answers its indeterminate content. -/
def compareBetween (filtering : Filtering) (offsets : List Int) : Eval Bool := do
  let lv ← calculOperandValue u row filtering.lv offsets none
  let min ← calculOperandValue u row filtering.rv offsets (some 0)
  let max ← calculOperandValue u row filtering.rv offsets (some 1)
  match lv.type_ with
  | .int32 => pure (min.int_ ≤ lv.int_ && lv.int_ ≤ max.int_)
  | .int64 | .decimal => pure (min.int64_ ≤ lv.int64_ && lv.int64_ ≤ max.int64_)
  | .float32 => pure (min.float_ ≤ lv.float_ && lv.float_ ≤ max.float_)
  | .double => pure (min.double_ ≤ lv.double_ && lv.double_ ≤ max.double_)
  | _ => pure u.bool_

/-- The integer loop of `compare_in`: a literal that is not a number throws when it is reached. -/
def intIn (n : Int) : List Bytes → Option Bool
  | [] => some false
  | value :: values => do
    let literal ← stoi value
    if n = literal then some true else intIn n values

def compareIn (filtering : Filtering) (offsets : List Int) : Eval Bool := do
  let lv ← calculOperandValue u row filtering.lv offsets (some 0)
  match lv.type_ with
  | .int32 => intIn lv.int_ filtering.rv.values
  | .string => pure (decide (lv.string_ ∈ filtering.rv.values))
  | _ => pure false

def compareNotIn : Nat → Filtering → List Int → Eval Bool
  | 0, _, _ => failure
  | depth + 1, filtering, offsets => do
    let passed ← compareNotIn depth filtering offsets
    pure !passed

def compareIs (filtering : Filtering) (offsets : List Int) : Eval Bool := do
  let _ ← calculOperandValue u row filtering.lv offsets (some 0)
  pure false

def compareIsNot (filtering : Filtering) (offsets : List Int) : Eval Bool := do
  let passed ← compareIs u row filtering offsets
  pure !passed

/-- The loop over the conditions of a row: `AND` stops on false, `OR` stops on true. -/
def filterLoop (depth : Nat) (offsets : List Int) : List Filtering → Bool → Eval Bool
  | [], passed => pure passed
  | filtering :: rest, passed =>
    match filtering.operator with
    | .ge => do let passed ← compareGe u row filtering offsets; filterLoop depth offsets rest passed
    | .le => do let passed ← compareLe u row filtering offsets; filterLoop depth offsets rest passed
    | .gt => do let passed ← compareGt u row filtering offsets; filterLoop depth offsets rest passed
    | .lt => do let passed ← compareLt u row filtering offsets; filterLoop depth offsets rest passed
    | .eq => do let passed ← compareEq u row filtering offsets; filterLoop depth offsets rest passed
    | .ne => do let passed ← compareNe u row filtering offsets; filterLoop depth offsets rest passed
    | .like => do let passed ← compareLike u row filtering offsets; filterLoop depth offsets rest passed
    | .notLike => do let passed ← compareNotLike u row filtering offsets; filterLoop depth offsets rest passed
    | .between => do let passed ← compareBetween u row filtering offsets; filterLoop depth offsets rest passed
    | .inList => do let passed ← compareIn u row filtering offsets; filterLoop depth offsets rest passed
    | .notIn => do let passed ← compareNotIn depth filtering offsets; filterLoop depth offsets rest passed
    | .is => do let passed ← compareIs u row filtering offsets; filterLoop depth offsets rest passed
    | .isNot => do let passed ← compareIsNot u row filtering offsets; filterLoop depth offsets rest passed
    | .and => if passed then filterLoop depth offsets rest passed else pure passed
    | .or => if passed then pure passed else filterLoop depth offsets rest passed
    | .undefined _ => filterLoop depth offsets rest passed

end Comparisons

/-- Whether one row passes. A name inserted into the map by an earlier row still reads as column
0, so each row may start from the snippet's own schema. -/
def rowPasses (u : KValue) (depth : Nat) (snippet : Snippet) (row : Bytes) : Option Bool := do
  let offsets ← columnOffsetList row snippet.schemaInfo
  (filterLoop u (ofBytes row) depth offsets snippet.queryInfo.filtering true).run' snippet.schemaInfo

def filterRows (u : KValue) (depth : Nat) (snippet : Snippet) : List Bytes → Data → Option Data
  | [], filtered => some filtered
  | row :: rows, filtered => do
    let passed ← rowPasses u depth snippet row
    filterRows u depth snippet rows
      (if passed then
        { filtered.pushRow row with filteredRowCount := filtered.filteredRowCount + 1 }
      else filtered)

def filtering (u : KValue) (depth : Nat) (result : CsdResult) : Option CsdResult := do
  let snippet ← result.snippet
  let filtered ← filterRows u depth snippet result.data.rows
    { Data.clear with
      scannedRowCount := result.data.scannedRowCount
      currentBlockCount := result.data.currentBlockCount }
  pure { snippet := some snippet, data := filtered.pushEnd }

def passes (u : KValue) (depth : Nat) (snippet : Snippet) (row : Bytes) : Bool :=
  rowPasses u depth snippet row = some true

section Filtering
variable {u : KValue} {depth : Nat} {snippet : Snippet}

theorem filterRows_holds {rows : List Bytes} (kept : List Bytes) {d filtered : Data}
    (h : filterRows u depth snippet rows d = some filtered) (hd : d.Holds kept) :
    filtered.Holds (kept ++ rows.filter (passes u depth snippet)) ∧
      filtered.currentBlockCount = d.currentBlockCount ∧ ∀ row ∈ rows, (rowPasses u depth snippet row).isSome := by
  induction rows generalizing d kept with
  | nil =>
    obtain rfl : d = filtered := Option.some_inj.mp h
    refine ⟨by simpa using hd, rfl, fun row hRow => ?_⟩
    cases hRow
  | cons row rows ih =>
    obtain ⟨passed, hPassed, hRest⟩ := Option.bind_eq_some_iff.mp h
    have hRow : (rowPasses u depth snippet row).isSome := by rw [hPassed]; rfl
    cases passed with
    | true =>
      have hPasses : passes u depth snippet row = true := decide_eq_true hPassed
      have hPush := hd.pushRow row
      obtain ⟨hHolds, hBlocks, hSome⟩ := ih _ hRest ⟨hPush.rowOffset, hPush.dataLength, hPush.rowCount, hPush.bytes⟩
      rw [List.append_assoc, List.singleton_append] at hHolds
      rw [List.filter_cons_of_pos hPasses]
      exact ⟨hHolds, hBlocks, List.forall_mem_cons.mpr ⟨hRow, hSome⟩⟩
    | false =>
      have hFails : ¬ passes u depth snippet row = true := by simp [passes, hPassed]
      obtain ⟨hHolds, hBlocks, hSome⟩ := ih _ hRest hd
      rw [List.filter_cons_of_neg hFails]
      exact ⟨hHolds, hBlocks, List.forall_mem_cons.mpr ⟨hRow, hSome⟩⟩

theorem filtering_sealed {result filtered : CsdResult} (hSnippet : result.snippet = some snippet)
    (h : filtering u depth result = some filtered) :
    filtered.snippet = some snippet ∧ filtered.data.Sealed (result.data.rows.filter (passes u depth snippet)) ∧
      filtered.data.currentBlockCount = result.data.currentBlockCount ∧
      ∀ row ∈ result.data.rows, (rowPasses u depth snippet row).isSome := by
  obtain ⟨_, hEq, hBody⟩ := Option.bind_eq_some_iff.mp h
  obtain rfl := Option.some_inj.mp (hSnippet.symm.trans hEq)
  obtain ⟨kept, hKept, hSome⟩ := Option.bind_eq_some_iff.mp hBody
  obtain ⟨hHolds, hBlocks, hRows⟩ := filterRows_holds [] hKept ⟨rfl, rfl, rfl, rfl⟩
  cases hSome
  exact ⟨rfl, hHolds.pushEnd, hBlocks, hRows⟩

theorem filtering_snippet {result filtered : CsdResult} (h : filtering u depth result = some filtered) :
    filtered.snippet = result.snippet := by
  obtain ⟨snippet, hSnippet, -⟩ := Option.bind_eq_some_iff.mp h
  rw [(filtering_sealed hSnippet h).1, hSnippet]

theorem filterRows_isSome {rows : List Bytes} (d : Data) (h : ∀ row ∈ rows, (rowPasses u depth snippet row).isSome) :
    (filterRows u depth snippet rows d).isSome := by
  induction rows generalizing d with
  | nil => rfl
  | cons row rows ih =>
    obtain ⟨hRow, hRows⟩ := List.forall_mem_cons.mp h
    obtain ⟨passed, hPassed⟩ := Option.isSome_iff_exists.mp hRow
    rw [filterRows, hPassed]
    exact ih _ hRows

theorem filtering_isSome {result : CsdResult} (hSnippet : result.snippet = some snippet)
    (h : ∀ row ∈ result.data.rows, (rowPasses u depth snippet row).isSome) : (filtering u depth result).isSome := by
  obtain ⟨filtered, hFiltered⟩ := Option.isSome_iff_exists.mp (filterRows_isSome
    { Data.clear with
      scannedRowCount := result.data.scannedRowCount
      currentBlockCount := result.data.currentBlockCount } h)
  simp [filtering, hSnippet, hFiltered]

end Filtering

/-- However many calls are allowed, `compare_not_in` has not returned. -/
theorem compareNotIn_eq_none (depth : Nat) (filtering : Filtering) (offsets : List Int)
    (schemaInfo : SchemaInfo) : (compareNotIn depth filtering offsets).run schemaInfo = none := by
  induction depth with
  | zero => rfl
  | succ depth ih =>
    rw [compareNotIn, StateT.run_bind, ih]
    rfl

def NegatesIn (u : KValue) (row : Mem) (filtering : Filtering) (offsets : List Int)
    (schemaInfo : SchemaInfo) : Prop :=
  ∃ passed schemaInfo' depth schemaInfo'',
    (compareIn u row filtering offsets).run schemaInfo = some (passed, schemaInfo') ∧
      (compareNotIn depth filtering offsets).run schemaInfo = some (!passed, schemaInfo'')

theorem compareNotIn_never_negatesIn (u : KValue) (row : Mem) (filtering : Filtering) (offsets : List Int)
    (schemaInfo : SchemaInfo) : ¬ NegatesIn u row filtering offsets schemaInfo := by
  rintro ⟨passed, schemaInfo', depth, schemaInfo'', -, hNotIn⟩
  rw [compareNotIn_eq_none] at hNotIn
  cases hNotIn

def emptySchema : SchemaInfo :=
  { columnName := [], columnOffset := [0], columnLength := [], columnType := [], columnIndexMap := [],
    pkColumn := [], tableIndexNumber := 0, hasVarChar := false }

def fiveNotIn : Filtering :=
  { lv := ⟨[.int32], [bytesOf "5"]⟩, operator := .notIn, rv := ⟨[.int32, .int32], [bytesOf "3", bytesOf "5"]⟩ }

theorem five_notIn_diverges :
    (compareIn KValue.zero zeroed fiveNotIn [0]).run emptySchema = some (true, emptySchema) ∧
      ¬ ∃ depth schemaInfo, (compareNotIn depth fiveNotIn [0]).run emptySchema = some (false, schemaInfo) := by
  refine ⟨by decide, ?_⟩
  rintro ⟨depth, schemaInfo, hNotIn⟩
  rw [compareNotIn_eq_none] at hNotIn
  cases hNotIn

end CsdWorker.Filter
