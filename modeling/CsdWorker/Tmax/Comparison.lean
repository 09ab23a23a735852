import CsdWorker.Lib.Padded
import CsdWorker.Tmax.Ex

/-! # What `exp_eval_condition` decides

The six operators read one three-way comparison of the payloads of two columns. For `CHAR` columns the
code looks for any byte but a space in the tail of the longer payload and takes that payload as the
greater one, also if the byte sorts below the space.
-/

namespace CsdWorker.Tmax

open Memory Padded

set_option autoImplicit false

/-- The bytes that are compared, as numbers. -/
def payload (col : Mem) : List ℕ := (read (rpcolGetData col) 0 (rpcolGetSize col)).map UInt8.toNat

def comparisons : List ExpOpType := [.equal, .ne, .gt, .lt, .ge, .le]

def opHolds (opType : ExpOpType) (o : Ordering) : Bool :=
  match opType with
  | .equal => o == .eq
  | .ne => o != .eq
  | .gt => o == .gt
  | .lt => o == .lt
  | .ge => o != .lt
  | .le => o != .gt
  | _ => false

@[simp] theorem length_payload (col : Mem) : (payload col).length = rpcolGetSize col := by
  rw [payload, List.length_map, length_read]

theorem take_payload (col : Mem) {n : Nat} (h : n ≤ rpcolGetSize col) :
    (payload col).take n = (read (rpcolGetData col) 0 n).map UInt8.toNat := by
  obtain ⟨k, hk⟩ := Nat.exists_eq_add_of_le h
  rw [payload, hk, read_add, List.map_append, List.take_left' (by simp)]

theorem drop_payload (col : Mem) {n : Nat} (h : n ≤ rpcolGetSize col) :
    (payload col).drop n = (read (rpcolGetData col) n (rpcolGetSize col - n)).map UInt8.toNat := by
  obtain ⟨k, hk⟩ := Nat.exists_eq_add_of_le h
  rw [payload, hk, read_add, List.map_append, List.drop_left' (by simp), Nat.zero_add, Nat.add_sub_cancel_left]

theorem cmp_sub_zero (a b : ℕ) : cmp ((a : Int) - b) 0 = cmp a b := by
  rcases lt_trichotomy a b with h | rfl | h
  · rw [(cmp_eq_lt_iff a b).mpr h, cmp_eq_lt_iff]
    omega
  · rw [cmp_self_eq_eq, cmp_eq_eq_iff]
    omega
  · rw [(cmp_eq_gt_iff a b).mpr h, cmp_eq_gt_iff]
    omega

theorem cmp_memcmp (a b : Mem) (i n : Nat) :
    cmp (memcmp a b i n) 0 = lexCmp ((read a i n).map UInt8.toNat) ((read b i n).map UInt8.toNat) := by
  induction n generalizing i with
  | zero => rfl
  | succ n ih =>
    rw [memcmp, Memory.read, Memory.read, List.map_cons, List.map_cons, lexCmp, ← ih (i + 1)]
    rcases eq_or_ne (a i) (b i) with h | h
    · rw [if_pos h, h, cmp_self_eq_eq, Ordering.eq_then]
    · have hCmp : cmp (a i).toNat (b i).toNat ≠ .eq := fun hEq => h (UInt8.toNat.inj ((cmp_eq_eq_iff _ _).mp hEq))
      rw [if_neg h, cmp_sub_zero, then_of_ne_eq hCmp]

def isBlankTail (zs : List ℕ) : Bool := (zs.find? (· ≠ 32)).isNone

theorem isBlankTail_blank (zs : List ℕ) : isBlankTail (32 :: zs) = isBlankTail zs := rfl

theorem isBlankTail_of_ne {z : ℕ} (h : z ≠ 32) (zs : List ℕ) : isBlankTail (z :: zs) = false := by
  rw [isBlankTail, List.find?_cons_of_pos (by simpa using h)]
  rfl

theorem hasNonBlank_eq (str : Mem) (i n : Nat) :
    hasNonBlank str i n = !isBlankTail ((read str i n).map UInt8.toNat) := by
  induction n generalizing i with
  | zero => rfl
  | succ n ih =>
    rw [hasNonBlank, Memory.read, List.map_cons, ih (i + 1)]
    rcases eq_or_ne (str i) 32 with h | h
    · rw [h]
      exact (congrArg Bool.not (isBlankTail_blank _)).symm
    · have hByte : (str i).toNat ≠ 32 := fun hEq => h (UInt8.toNat.inj hEq)
      rw [isBlankTail_of_ne hByte]
      simp [h]

section Order
variable (l r : Mem)

/-- How the two tails behind the common length `n` decide for `CHAR` columns. -/
def tailCmp (n : Nat) : Ordering :=
  if rpcolGetSize l < rpcolGetSize r then if isBlankTail ((payload r).drop n) then .eq else .lt
  else if rpcolGetSize r < rpcolGetSize l then if isBlankTail ((payload l).drop n) then .eq else .gt
  else .eq

theorem cmp_prefix {n : Nat} (hl : n ≤ rpcolGetSize l) (hr : n ≤ rpcolGetSize r) :
    cmp (memcmp (rpcolGetData l) (rpcolGetData r) 0 n) 0 = lexCmp ((payload l).take n) ((payload r).take n) := by
  rw [cmp_memcmp, take_payload l hl, take_payload r hr]

theorem cmp_compareVals_plain : cmp (compareVals l r false) 0 = lexCmp (payload l) (payload r) := by
  let n := min (rpcolGetSize l) (rpcolGetSize r)
  have hMin : (if rpcolGetSize l ≤ rpcolGetSize r then rpcolGetSize l else rpcolGetSize r) = n := (min_def _ _).symm
  have hPrefix := cmp_prefix l r (n := n) (min_le_left _ _) (min_le_right _ _)
  rw [lexCmp_take_drop n (by simp [n]) (by simp [n]), ← hPrefix, compareVals]
  simp only [hMin, Bool.not_false, if_true]
  generalize memcmp (rpcolGetData l) (rpcolGetData r) 0 n = c
  rcases eq_or_ne c 0 with rfl | hc
  · rw [if_neg (by simp), cmp_self_eq_eq, Ordering.eq_then, cmp_sub_zero]
    rcases Nat.lt_trichotomy (rpcolGetSize l) (rpcolGetSize r) with h | h | h
    · have hl : (payload l).drop n = [] := List.drop_of_length_le (by simp [n]; omega)
      have hr : (payload r).drop n ≠ [] := by simp [n]; omega
      rw [(cmp_eq_lt_iff _ _).mpr h, hl, lexCmp_nil_left, if_neg hr]
    · have hl : (payload l).drop n = [] := List.drop_of_length_le (by simp [n]; omega)
      have hr : (payload r).drop n = [] := List.drop_of_length_le (by simp [n]; omega)
      rw [(cmp_eq_eq_iff _ _).mpr h, hl, hr, lexCmp_self]
    · have hl : (payload l).drop n ≠ [] := by simp [n]; omega
      have hr : (payload r).drop n = [] := List.drop_of_length_le (by simp [n]; omega)
      rw [(cmp_eq_gt_iff _ _).mpr h, hr, ← lexCmp_swap, lexCmp_nil_left, if_neg hl]
      rfl
  · have hCmp : cmp c 0 ≠ .eq := fun h => hc ((cmp_eq_eq_iff c 0).mp h)
    rw [if_pos hc, then_of_ne_eq hCmp]

theorem cmp_compareVals_char {n : Nat} (hn : n = min (rpcolGetSize l) (rpcolGetSize r)) :
    cmp (compareVals l r true) 0 = (lexCmp ((payload l).take n) ((payload r).take n)).then (tailCmp l r n) := by
  have hMin : (if rpcolGetSize l ≤ rpcolGetSize r then rpcolGetSize l else rpcolGetSize r) = n := by rw [hn, min_def]
  have hPrefix := cmp_prefix l r (n := n) (by omega) (by omega)
  rw [← hPrefix, compareVals]
  simp only [hMin, Bool.not_true, Bool.false_eq_true, if_false]
  generalize memcmp (rpcolGetData l) (rpcolGetData r) 0 n = c
  rcases eq_or_ne c 0 with rfl | hc
  · rw [if_pos rfl, cmp_self_eq_eq, Ordering.eq_then, tailCmp]
    rcases Nat.lt_trichotomy (rpcolGetSize l) (rpcolGetSize r) with h | h | h
    · obtain rfl : n = rpcolGetSize l := by omega
      simp only [if_pos h]
      rw [hasNonBlank_eq, drop_payload r h.le]
      cases isBlankTail _ <;> rfl
    · simp only [h, lt_irrefl, if_false]
      rfl
    · obtain rfl : n = rpcolGetSize r := by omega
      simp only [if_neg h.not_gt, if_pos h]
      rw [hasNonBlank_eq, drop_payload l h.le]
      cases isBlankTail _ <;> rfl
  · have hCmp : cmp c 0 ≠ .eq := fun h => hc ((cmp_eq_eq_iff c 0).mp h)
    rw [if_neg hc, then_of_ne_eq hCmp]

theorem tailCmp_swap (n : Nat) : (tailCmp l r n).swap = tailCmp r l n := by
  rw [tailCmp, tailCmp]
  rcases Nat.lt_trichotomy (rpcolGetSize l) (rpcolGetSize r) with h | h | h
  · simp only [if_pos h, if_neg h.not_gt]
    cases isBlankTail ((payload r).drop n) <;> rfl
  · simp only [h, lt_irrefl, if_false]
    rfl
  · simp only [if_pos h, if_neg h.not_gt]
    cases isBlankTail ((payload l).drop n) <;> rfl

theorem cmp_compareVals_swap (isCharType : Bool) :
    cmp (compareVals r l isCharType) 0 = (cmp (compareVals l r isCharType) 0).swap := by
  cases isCharType with
  | false => rw [cmp_compareVals_plain, cmp_compareVals_plain, lexCmp_swap]
  | true => rw [cmp_compareVals_char l r rfl, cmp_compareVals_char r l (min_comm _ _), Ordering.swap_then, lexCmp_swap,
      tailCmp_swap]

end Order

theorem expEvalCondition_eq {l r : Mem} (hl : rpcolGetSize l ≠ 0) (hr : rpcolGetSize r ≠ 0) (opType : ExpOpType)
    (isCharType : Bool) :
    expEvalCondition l r opType isCharType = opHolds opType (cmp (compareVals l r isCharType) 0) := by
  have hMin : ¬(if rpcolGetSize l ≤ rpcolGetSize r then rpcolGetSize l else rpcolGetSize r) = 0 := by
    split <;> assumption
  rw [expEvalCondition]
  simp only [hMin, if_false]
  generalize compareVals l r isCharType = c
  rcases lt_trichotomy c 0 with h | rfl | h
  · rw [(cmp_eq_lt_iff c 0).mpr h]
    cases opType <;> simp [opHolds, h, h.ne, h.not_gt]
  · rw [cmp_self_eq_eq]
    cases opType <;> rfl
  · rw [(cmp_eq_gt_iff c 0).mpr h]
    cases opType <;> simp [opHolds, h, h.ne', h.not_gt]

theorem expEvalCondition_null {l r : Mem} (h : rpcolGetSize l = 0 ∨ rpcolGetSize r = 0) (opType : ExpOpType)
    (isCharType : Bool) : expEvalCondition l r opType isCharType = false := by
  rw [expEvalCondition, if_pos]
  split <;> omega

section Consistency
variable (l r : Mem) (isCharType : Bool)

structure Consistent : Prop where
  exactly_one : [ExpOpType.lt, .equal, .gt].countP (fun opType => expEvalCondition l r opType isCharType) = 1
  ne : expEvalCondition l r .ne isCharType = !expEvalCondition l r .equal isCharType
  ge : expEvalCondition l r .ge isCharType = !expEvalCondition l r .lt isCharType
  le : expEvalCondition l r .le isCharType = !expEvalCondition l r .gt isCharType
  lt_swap : expEvalCondition r l .lt isCharType = expEvalCondition l r .gt isCharType
  gt_swap : expEvalCondition r l .gt isCharType = expEvalCondition l r .lt isCharType
  equal_swap : expEvalCondition r l .equal isCharType = expEvalCondition l r .equal isCharType

structure Lexicographic : Prop where
  lt : expEvalCondition l r .lt false = true ↔ payload l < payload r
  equal : expEvalCondition l r .equal false = true ↔ payload l = payload r
  gt : expEvalCondition l r .gt false = true ↔ payload r < payload l

variable {l r}

theorem consistent_of_nonNull (hl : rpcolGetSize l ≠ 0) (hr : rpcolGetSize r ≠ 0) : Consistent l r isCharType := by
  have hSwap := cmp_compareVals_swap l r isCharType
  constructor
  all_goals
    simp only [expEvalCondition_eq hl hr, expEvalCondition_eq hr hl, hSwap]
    cases cmp (compareVals l r isCharType) 0 <;> decide

theorem lexicographic_of_nonNull (hl : rpcolGetSize l ≠ 0) (hr : rpcolGetSize r ≠ 0) : Lexicographic l r where
  lt := by
    rw [expEvalCondition_eq hl hr, cmp_compareVals_plain, ← lexCmp_eq_lt_iff]
    exact beq_iff_eq
  equal := by
    rw [expEvalCondition_eq hl hr, cmp_compareVals_plain, ← lexCmp_eq_eq_iff]
    exact beq_iff_eq
  gt := by
    rw [expEvalCondition_eq hl hr, cmp_compareVals_plain, ← lexCmp_eq_gt_iff]
    exact beq_iff_eq

end Consistency

/-- The operators agree with each other on any two columns that are not null, and with the order of the
payloads if the column is not of a `CHAR` type. -/
theorem expEvalCondition_consistent (l r : Mem) (isCharType : Bool) :
    (rpcolGetSize l ≠ 0 → rpcolGetSize r ≠ 0 → Consistent l r isCharType ∧ Lexicographic l r) ∧
      (rpcolGetSize l = 0 ∨ rpcolGetSize r = 0 →
        ∀ opType ∈ comparisons, expEvalCondition l r opType isCharType = false) :=
  ⟨fun hl hr => ⟨consistent_of_nonNull isCharType hl hr, lexicographic_of_nonNull hl hr⟩,
    fun h opType _ => expEvalCondition_null h opType isCharType⟩

theorem prefix_column_lt :
    expEvalCondition (ofBytes [1, 65]) (ofBytes [2, 65, 66]) .lt false = true ∧
      expEvalCondition (ofBytes [2, 65, 66]) (ofBytes [1, 65]) .gt false = true := by
  obtain ⟨hConsistent, hLexicographic⟩ :=
    (expEvalCondition_consistent (ofBytes [1, 65]) (ofBytes [2, 65, 66]) false).1 (by decide) (by decide)
  have hLt := hLexicographic.lt.mpr (by decide)
  exact ⟨hLt, hConsistent.gt_swap.trans hLt⟩

section Blanks
variable (l r : Mem)

/-- All operators answer as for the payloads filled up with spaces. -/
def ComparesPadded : Prop :=
  ∀ opType ∈ comparisons, expEvalCondition l r opType true = opHolds opType (paddedCmp 32 (payload l) (payload r))

/-- The payloads differ within their common length, or behind it the first byte that is not a space, if
there is one, sorts above the space. -/
def TailAboveBlank : Prop :=
  let n := min (rpcolGetSize l) (rpcolGetSize r)
  (payload l).take n ≠ (payload r).take n ∨ ∀ c ∈ ((payload l).drop n ++ (payload r).drop n).find? (· ≠ 32), 32 < c

theorem tailAboveBlank_comm : TailAboveBlank l r ↔ TailAboveBlank r l := by
  have hNil :
    ∀ a b : Mem, rpcolGetSize a ≤ rpcolGetSize b → (payload a).drop (min (rpcolGetSize a) (rpcolGetSize b)) = [] :=
    fun a b h => List.drop_of_length_le (by simp [h])
  rw [TailAboveBlank, TailAboveBlank, min_comm (rpcolGetSize r), ne_comm]
  rcases le_total (rpcolGetSize l) (rpcolGetSize r) with h | h
  · rw [hNil l r h, List.nil_append, List.append_nil]
  · rw [min_comm, hNil r l h, List.nil_append, List.append_nil]

theorem opHolds_inj {o o' : Ordering} : (∀ opType ∈ comparisons, opHolds opType o = opHolds opType o') ↔ o = o' := by
  cases o <;> cases o' <;> decide

theorem then_eq_then_iff (o a b : Ordering) : o.then a = o.then b ↔ o ≠ .eq ∨ a = b := by
  cases o <;> simp

variable {l r}

theorem comparesPadded_iff_cmp (hl : rpcolGetSize l ≠ 0) (hr : rpcolGetSize r ≠ 0) :
    ComparesPadded l r ↔ cmp (compareVals l r true) 0 = paddedCmp 32 (payload l) (payload r) := by
  rw [← opHolds_inj, ComparesPadded]
  simp only [expEvalCondition_eq hl hr]

theorem cmp_eq_padded_iff_of_le (h : rpcolGetSize l ≤ rpcolGetSize r) :
    cmp (compareVals l r true) 0 = paddedCmp 32 (payload l) (payload r) ↔ TailAboveBlank l r := by
  have hMin : rpcolGetSize l = min (rpcolGetSize l) (rpcolGetSize r) := (min_eq_left h).symm
  have hTake : (payload l).take (rpcolGetSize l) = payload l := List.take_of_length_le (by simp)
  have hDrop : (payload l).drop (rpcolGetSize l) = [] := List.drop_of_length_le (by simp)
  rw [cmp_compareVals_char l r hMin, paddedCmp_of_le 32 (by simpa using h), length_payload, lexCmp_replicate, hTake,
    then_eq_then_iff, TailAboveBlank, ← hMin, hTake, hDrop, List.nil_append, ne_eq, lexCmp_eq_eq_iff]
  apply or_congr_right
  rw [tailCmp, isBlankTail]
  cases hFind : ((payload r).drop (rpcolGetSize l)).find? (· ≠ 32) with
  | none => simp [h.not_gt]
  | some c =>
    have hLess : rpcolGetSize l < rpcolGetSize r := by
      by_contra hNot
      rw [List.drop_of_length_le (by simpa using hNot)] at hFind
      cases hFind
    simp only [hLess, if_true, Option.isNone_some, Bool.false_eq_true, if_false, Option.map_some, Option.getD_some,
      Option.mem_def, Option.some_inj, forall_eq']
    rw [eq_comm, cmp_eq_lt_iff]

theorem cmp_eq_padded_iff :
    cmp (compareVals l r true) 0 = paddedCmp 32 (payload l) (payload r) ↔ TailAboveBlank l r := by
  rcases le_total (rpcolGetSize l) (rpcolGetSize r) with h | h
  · exact cmp_eq_padded_iff_of_le h
  · rw [tailAboveBlank_comm, ← cmp_eq_padded_iff_of_le h, cmp_compareVals_swap r l, ← paddedCmp_swap 32 (payload r)]
    exact Ordering.swap_inj

end Blanks

/-- `EQUAL` is an equivalence on the three columns, and `LT` is transitive and respects it. -/
structure CharOrder (a b c : Mem) : Prop where
  refl : expEvalCondition a a .equal true = true
  symm : expEvalCondition a b .equal true = true → expEvalCondition b a .equal true = true
  trans : expEvalCondition a b .equal true = true → expEvalCondition b c .equal true = true →
    expEvalCondition a c .equal true = true
  lt_trans : expEvalCondition a b .lt true = true → expEvalCondition b c .lt true = true →
    expEvalCondition a c .lt true = true
  lt_of_equal : expEvalCondition a b .equal true = true → expEvalCondition b c .lt true = true →
    expEvalCondition a c .lt true = true
  lt_equal : expEvalCondition a b .lt true = true → expEvalCondition b c .equal true = true →
    expEvalCondition a c .lt true = true

section CharOrder
variable {a b c : Mem}

theorem equal_iff_padded (ha : rpcolGetSize a ≠ 0) (hb : rpcolGetSize b ≠ 0) (h : TailAboveBlank a b) :
    expEvalCondition a b .equal true = true ↔ paddedCmp 32 (payload a) (payload b) = .eq := by
  rw [expEvalCondition_eq ha hb, cmp_eq_padded_iff.mpr h]
  exact beq_iff_eq

theorem lt_iff_padded (ha : rpcolGetSize a ≠ 0) (hb : rpcolGetSize b ≠ 0) (h : TailAboveBlank a b) :
    expEvalCondition a b .lt true = true ↔ paddedCmp 32 (payload a) (payload b) = .lt := by
  rw [expEvalCondition_eq ha hb, cmp_eq_padded_iff.mpr h]
  exact beq_iff_eq

theorem charOrder_of_tailAboveBlank (ha : rpcolGetSize a ≠ 0) (hb : rpcolGetSize b ≠ 0) (hc : rpcolGetSize c ≠ 0)
    (hab : TailAboveBlank a b) (hbc : TailAboveBlank b c) (hac : TailAboveBlank a c) : CharOrder a b c := by
  have hConsistent := consistent_of_nonNull true ha hb
  constructor
  · have hNil : (payload a).drop (min (rpcolGetSize a) (rpcolGetSize a)) = [] := List.drop_of_length_le (by simp)
    have hSame : TailAboveBlank a a := Or.inr (by rw [hNil]; nofun)
    rw [equal_iff_padded ha ha hSame]
    exact lexCmp_self _
  · rw [hConsistent.equal_swap]
    exact id
  · rw [equal_iff_padded ha hb hab, equal_iff_padded hb hc hbc, equal_iff_padded ha hc hac]
    intro hEq hEq'
    rw [paddedCmp_congr_left 32 hEq, hEq']
  · rw [lt_iff_padded ha hb hab, lt_iff_padded hb hc hbc, lt_iff_padded ha hc hac]
    exact paddedCmp_lt_trans 32
  · rw [equal_iff_padded ha hb hab, lt_iff_padded hb hc hbc, lt_iff_padded ha hc hac]
    intro hEq hLt
    rw [paddedCmp_congr_left 32 hEq, hLt]
  · rw [lt_iff_padded ha hb hab, equal_iff_padded hb hc hbc, lt_iff_padded ha hc hac]
    intro hLt hEq
    rw [paddedCmp_congr_right 32 hEq] at hLt
    exact hLt

end CharOrder

/-- Two `CHAR` columns are compared like strings filled up with spaces unless the tail of the longer one
starts, behind its spaces, with a byte below the space. -/
theorem comparesPadded_iff (a b : Mem) (ha : rpcolGetSize a ≠ 0) (hb : rpcolGetSize b ≠ 0) :
    (ComparesPadded a b ↔ TailAboveBlank a b) ∧
      ∀ c : Mem, rpcolGetSize c ≠ 0 → TailAboveBlank a b → TailAboveBlank b c → TailAboveBlank a c → CharOrder a b c :=
  ⟨(comparesPadded_iff_cmp ha hb).trans cmp_eq_padded_iff,
    fun _ hc hab hbc hac => charOrder_of_tailAboveBlank ha hb hc hab hbc hac⟩

/-- `'A'` and `'A '` are equal. -/
theorem trailing_blank_compares : ComparesPadded (ofBytes [1, 65]) (ofBytes [2, 65, 32]) :=
  (comparesPadded_iff (ofBytes [1, 65]) (ofBytes [2, 65, 32]) (by decide) (by decide)).1.mpr (Or.inr (by decide))

/-- A unit separator sorts below the space, but a column that ends with it is taken as the greater one. -/
theorem control_byte_miscompared :
    rpcolGetSize (ofBytes [1, 65]) ≠ 0 ∧ rpcolGetSize (ofBytes [2, 65, 31]) ≠ 0 ∧
      ¬ComparesPadded (ofBytes [1, 65]) (ofBytes [2, 65, 31]) := by
  refine ⟨by decide, by decide, fun h => ?_⟩
  have hLt := h .lt (by decide)
  revert hLt
  decide

end CsdWorker.Tmax
