import CsdWorker.Evaluation
import CsdWorker.Filter
import CsdWorker.Projection

/-! # One schema for all rows

The filter and the projection hand `schema_info` on by reference, so a name that one row inserts into
`column_index_map` is there for the next one, and for the next layer. Every row may as well start from the schema
of the snippet.
-/

namespace CsdWorker

open Memory

set_option autoImplicit false

section Offsets
variable (row : Mem) (s : SchemaInfo)

theorem calculColumnOffsetFrom_withoutMap (n i : Nat) (tune : Int) :
    calculColumnOffsetFrom row s.withoutMap n i tune = calculColumnOffsetFrom row s n i tune := by
  induction n generalizing i tune with
  | zero => rfl
  | succ n ih =>
    simp only [calculColumnOffsetFrom, ih]
    rfl

theorem calculColumnOffset_of_equiv {s t : SchemaInfo} (h : s ≈ t) :
    calculColumnOffset row s = calculColumnOffset row t := by
  have hWithout : s.withoutMap = t.withoutMap := h.1
  rw [calculColumnOffset, calculColumnOffset, ← calculColumnOffsetFrom_withoutMap row s,
    ← calculColumnOffsetFrom_withoutMap row t, hWithout]
  exact congrArg (calculColumnOffsetFrom row t.withoutMap · 0 0) (congrArg (fun s => s.columnName.length) hWithout)

theorem columnOffsetList_of_equiv {s t : SchemaInfo} (bytes : Bytes) (h : s ≈ t) :
    columnOffsetList bytes s = columnOffsetList bytes t := by
  have hFlag : s.hasVarChar = t.hasVarChar := (congrArg SchemaInfo.hasVarChar h.1 :)
  have hOffset : s.columnOffset = t.columnOffset := (congrArg SchemaInfo.columnOffset h.1 :)
  rw [columnOffsetList, columnOffsetList, calculColumnOffset_of_equiv _ h, hFlag, hOffset]

end Offsets

namespace Filter

section Comparisons
variable (u : KValue) (row : Mem) (filtering : Filtering) (offsets : List Int)

theorem query_compareBy (int : Int → Int → Bool) (float : Float32 → Float32 → Bool) (double : Float → Float → Bool)
    (string : Bytes → Bytes → Bool) :
    Query (compareBy u row int float double string filtering offsets) fun _ => True := by
  rw [compareBy]
  refine Query.bind (query_calculOperandValue u row filtering.lv offsets none) fun lv _ => ?_
  refine Query.bind (query_calculOperandValue u row filtering.rv offsets none) fun rv _ => ?_
  split <;> exact Query.pure trivial

theorem query_compareNe : Query (compareNe u row filtering offsets) fun _ => True :=
  Query.bind (query_compareBy u row filtering offsets _ _ _ _) fun _ _ => Query.pure trivial

theorem query_compareLike : Query (compareLike u row filtering offsets) fun _ => True := by
  rw [compareLike]
  refine Query.bind (query_calculOperandValue u row filtering.lv offsets none) fun lv _ => ?_
  refine Query.bind (query_calculOperandValue u row filtering.rv offsets none) fun rv _ => ?_
  exact Query.lift fun _ _ => trivial

theorem query_compareNotLike : Query (compareNotLike u row filtering offsets) fun _ => True :=
  Query.bind (query_compareLike u row filtering offsets) fun _ _ => Query.pure trivial

theorem query_compareBetween : Query (compareBetween u row filtering offsets) fun _ => True := by
  rw [compareBetween]
  refine Query.bind (query_calculOperandValue u row filtering.lv offsets none) fun lv _ => ?_
  refine Query.bind (query_calculOperandValue u row filtering.rv offsets (some 0)) fun min _ => ?_
  refine Query.bind (query_calculOperandValue u row filtering.rv offsets (some 1)) fun max _ => ?_
  split <;> exact Query.pure trivial

theorem query_compareIn : Query (compareIn u row filtering offsets) fun _ => True := by
  rw [compareIn]
  refine Query.bind (query_calculOperandValue u row filtering.lv offsets (some 0)) fun lv _ => ?_
  split
  · exact Query.lift fun _ _ => trivial
  · exact Query.pure trivial
  · exact Query.pure trivial

theorem query_compareNotIn (depth : Nat) : Query (compareNotIn depth filtering offsets) fun _ => True := by
  induction depth with
  | zero => exact Query.failure
  | succ depth ih => exact Query.bind ih fun _ _ => Query.pure trivial

theorem query_compareIs : Query (compareIs u row filtering offsets) fun _ => True :=
  Query.bind (query_calculOperandValue u row filtering.lv offsets (some 0)) fun _ _ => Query.pure trivial

theorem query_compareIsNot : Query (compareIsNot u row filtering offsets) fun _ => True :=
  Query.bind (query_compareIs u row filtering offsets) fun _ _ => Query.pure trivial

theorem query_filterLoop (depth : Nat) (filterings : List Filtering) (passed : Bool) :
    Query (filterLoop u row depth offsets filterings passed) fun _ => True := by
  induction filterings generalizing passed with
  | nil => exact Query.pure trivial
  | cons filtering rest ih =>
    rw [filterLoop]
    cases filtering.operator with
    | ge | le | gt | lt | eq =>
      exact Query.bind (query_compareBy u row filtering offsets _ _ _ _) fun passed _ => ih passed
    | ne => exact Query.bind (query_compareNe u row filtering offsets) fun passed _ => ih passed
    | like => exact Query.bind (query_compareLike u row filtering offsets) fun passed _ => ih passed
    | notLike => exact Query.bind (query_compareNotLike u row filtering offsets) fun passed _ => ih passed
    | between => exact Query.bind (query_compareBetween u row filtering offsets) fun passed _ => ih passed
    | inList => exact Query.bind (query_compareIn u row filtering offsets) fun passed _ => ih passed
    | notIn => exact Query.bind (query_compareNotIn filtering offsets depth) fun passed _ => ih passed
    | is => exact Query.bind (query_compareIs u row filtering offsets) fun passed _ => ih passed
    | isNot => exact Query.bind (query_compareIsNot u row filtering offsets) fun passed _ => ih passed
    | and =>
      cases passed with
      | true => exact ih true
      | false => exact Query.pure trivial
    | or =>
      cases passed with
      | true => exact Query.pure trivial
      | false => exact ih false
    | undefined => exact ih passed

end Comparisons

end Filter

namespace Projection

variable (u : KValue)

theorem query_projectionRawData (row : Mem) (expression : Operand) (offsets : List Int) (dest : Mem) (length : Nat) :
    Query (projectionRawData u row expression offsets dest length) fun _ => True := by
  rw [projectionRawData]
  split
  · refine Query.lift_bind fun columnName _ => ?_
    refine Query.bind (query_columnIndexAt columnName) fun columnIndex _ => ?_
    refine Query.lift_bind fun startOffset _ => ?_
    refine Query.lift_bind fun endOffset _ => ?_
    exact Query.lift_bind fun column _ => Query.pure trivial
  · refine Query.bind (query_calculOperandValue u row expression offsets none) fun value _ => ?_
    exact Query.lift fun _ _ => trivial

theorem query_projectColumns (row : Mem) (offsets : List Int) (projections : List Projectioning) (dest : Mem)
    (length : Nat) :
    Query (projectColumns u row offsets projections dest length) fun _ => True := by
  induction projections generalizing dest length with
  | nil => exact Query.pure trivial
  | cons projection rest ih =>
    rw [projectColumns]
    cases projection.selectType with
    | colName =>
      exact Query.bind (query_projectionRawData u row projection.expression offsets dest length) fun _ _ => ih _ _
    | _ => exact ih dest length

/-- A row of the loop of `projectioning`, with the schema as it has become. -/
def projectRowShared (snippet : Snippet) (row : Bytes) : Eval Bytes := do
  let schemaInfo ← get
  let offsets ← columnOffsetList row schemaInfo
  let (length, dest) ← projectColumns u (ofBytes row) offsets snippet.queryInfo.projection zeroed 0
  pure (read dest 0 length)

theorem projectRowShared_run' (snippet : Snippet) (row : Bytes) {s : SchemaInfo} (h : s ≈ snippet.schemaInfo) :
    (projectRowShared u snippet row).run' s = projectRow u snippet row := by
  rw [projectRowShared, projectRow, ← columnOffsetList_of_equiv row h, run'_get_bind, run'_lift_bind]
  refine Option.bind_congr fun offsets _ => ?_
  have hColumns := query_projectColumns u (ofBytes row) offsets snippet.queryInfo.projection zeroed 0
  rw [Query.run'_bind (Q := fun _ => True) hColumns fun _ _ => Query.pure trivial, hColumns.same h]
  rfl

end Projection

end CsdWorker
