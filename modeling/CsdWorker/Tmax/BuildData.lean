import CsdWorker.Tmax.Ex

/-! # The columns that `build_data` finds

With a list of used columns the loop stays on the last stored column once it has come there. A used
column that the row piece does not store is then that column, where the loop over all columns sets a
null pointer.
-/

namespace CsdWorker.Tmax

open Memory

set_option autoImplicit false

/-- Column `j` of the context is `col`, with its length. -/
def Stores (ctx : ExpCtx) (j : Nat) (col : Mem) : Prop :=
  ctx.columnVals j = some col ∧ ctx.columnValLens j = (rpcolGetLen col).toUInt16

def SameAt (ctx ctx' : ExpCtx) (j : Nat) : Prop :=
  ctx.columnVals j = ctx'.columnVals j ∧ ctx.columnValLens j = ctx'.columnValLens j

theorem stores_setColumn (ctx : ExpCtx) (i : Nat) (col : Mem) : Stores (setColumn ctx i col) i col :=
  ⟨Function.update_self _ _ _, Function.update_self _ _ _⟩

theorem setColumn_of_ne (ctx : ExpCtx) {i j : Nat} (h : j ≠ i) (col : Mem) : SameAt (setColumn ctx i col) ctx j :=
  ⟨Function.update_of_ne h _ _, Function.update_of_ne h _ _⟩

theorem Stores.of_same {ctx ctx' : ExpCtx} {j : Nat} {col : Mem} (h : SameAt ctx ctx' j) (hStores : Stores ctx' j col) :
    Stores ctx j col :=
  ⟨h.1.trans hStores.1, h.2.trans hStores.2⟩

theorem SameAt.trans {ctx ctx' ctx'' : ExpCtx} {j : Nat} (h : SameAt ctx ctx' j) (h' : SameAt ctx' ctx'' j) :
    SameAt ctx ctx'' j :=
  ⟨h.1.trans h'.1, h.2.trans h'.2⟩

section All
variable {d : Mem}

theorem buildAll_columns (n i : Nat) (ctx : ExpCtx) :
    (∀ j, i ≤ j → j < i + n → Stores (buildAll i n ctx (columnAt d i)) j (columnAt d j)) ∧
      ∀ j, j < i ∨ i + n ≤ j → SameAt (buildAll i n ctx (columnAt d i)) ctx j := by
  induction n generalizing i ctx with
  | zero => exact ⟨fun j hij hj => absurd hj (by omega), fun j _ => ⟨rfl, rfl⟩⟩
  | succ n ih =>
    obtain ⟨hLater, hOther⟩ := ih (i + 1) (setColumn ctx i (columnAt d i))
    constructor
    · intro j hij hj
      rcases Nat.eq_or_lt_of_le hij with rfl | hlt
      · exact (stores_setColumn ctx i (columnAt d i)).of_same (hOther i (by omega))
      · exact hLater j hlt (by omega)
    · intro j hj
      exact (hOther j (by omega)).trans (setColumn_of_ne ctx (by omega) _)

theorem setNull_columnVals (n i : Nat) (ctx : ExpCtx) :
    (∀ j, i ≤ j → j < i + n → (setNull i n ctx).columnVals j = none) ∧
      ∀ j, j < i ∨ i + n ≤ j → (setNull i n ctx).columnVals j = ctx.columnVals j := by
  induction n generalizing i ctx with
  | zero => exact ⟨fun j hij hj => absurd hj (by omega), fun j _ => rfl⟩
  | succ n ih =>
    obtain ⟨hLater, hOther⟩ := ih (i + 1)
      { columnVals := Function.update ctx.columnVals i none
        columnValLens := Function.update ctx.columnValLens i 1 }
    constructor
    · intro j hij hj
      rcases Nat.eq_or_lt_of_le hij with rfl | hlt
      · exact (hOther i (by omega)).trans (Function.update_self _ _ _)
      · exact hLater j hlt (by omega)
    · intro j hj
      exact (hOther j (by omega)).trans (Function.update_of_ne (by omega) _ _)

/-- Without a list of used columns: the stored columns, and null pointers for the others. -/
theorem buildData_all (ctx : ExpCtx) (d : Mem) (colCnt : Int) (rpColCnt : Nat) (usecolCnt : Int) {i : Nat}
    (hi : i < colCnt.toNat) :
    (buildData ctx d colCnt rpColCnt none usecolCnt).columnVals i =
      if i < rpColCnt then some (columnAt d i) else none := by
  let m : Int := if colCnt > rpColCnt then rpColCnt else colCnt
  have hm : m.toNat = min colCnt.toNat rpColCnt := by
    rcases lt_or_ge (rpColCnt : Int) colCnt with h | h
    · rw [show m = rpColCnt from if_pos h]
      omega
    · rw [show m = colCnt from if_neg (not_lt.mpr h)]
      omega
  change (setNull m.toNat (colCnt.toNat - m.toNat) (buildAll 0 m.toNat ctx d)).columnVals i = _
  rw [hm]
  obtain ⟨hNull, hKept⟩ := setNull_columnVals (colCnt.toNat - min colCnt.toNat rpColCnt) (min colCnt.toNat rpColCnt)
    (buildAll 0 (min colCnt.toNat rpColCnt) ctx d)
  rcases Nat.lt_or_ge i rpColCnt with h | h
  · rw [if_pos h, hKept i (by omega)]
    exact ((buildAll_columns (d := d) (min colCnt.toNat rpColCnt) 0 ctx).1 i (Nat.zero_le i) (by omega)).1
  · rw [if_neg (not_lt.mpr h), hNull i (by omega) (by omega)]

end All

section Used
variable {usecols : Nat → Bool}

/-- Where the pointer stands for column `i`. -/
def reached (d : Mem) (rpColCnt i : Nat) : Mem := columnAt d (min i (rpColCnt - 1))

theorem reached_of_lt (d : Mem) {rpColCnt i : Nat} (h : i < rpColCnt) : reached d rpColCnt i = columnAt d i := by
  rw [reached, min_eq_left (by omega)]

theorem reached_succ (d : Mem) (rpColCnt i : Nat) :
    (if (i : Int) < rpColCnt - 1 then shift (reached d rpColCnt i) (rpcolGetLen (reached d rpColCnt i))
      else reached d rpColCnt i) = reached d rpColCnt (i + 1) := by
  rcases Nat.lt_or_ge i (rpColCnt - 1) with h | h
  · rw [if_pos (by omega), reached, reached, min_eq_left h.le, min_eq_left (by omega), columnAt]
  · rw [if_neg (by omega), reached, reached, min_eq_right h, min_eq_right (by omega)]

/-- The loop gets to every used column as long as it expects no fewer than there are. -/
theorem buildUsed_columns (d : Mem) (rpColCnt n i : Nat) (ctx : ExpCtx) (remainedColCnt : Int)
    (hRemained : ((List.range' i n).countP usecols : Int) ≤ remainedColCnt) :
    (∀ j, i ≤ j → j < i + n → usecols j = true →
      Stores (buildUsed usecols rpColCnt i n ctx (reached d rpColCnt i) remainedColCnt) j (reached d rpColCnt j)) ∧
      ∀ j < i, SameAt (buildUsed usecols rpColCnt i n ctx (reached d rpColCnt i) remainedColCnt) ctx j := by
  induction n generalizing i ctx remainedColCnt with
  | zero => exact ⟨fun j hij hj _ => absurd hj (by omega), fun j _ => ⟨rfl, rfl⟩⟩
  | succ n ih =>
    let next : ExpCtx := if usecols i then setColumn ctx i (reached d rpColCnt i) else ctx
    let rest : Int := if usecols i then remainedColCnt - 1 else remainedColCnt
    have hNext : usecols i = true → Stores next i (reached d rpColCnt i) := by
      intro hUsed
      rw [show next = setColumn ctx i (reached d rpColCnt i) from if_pos hUsed]
      exact stores_setColumn ctx i _
    have hBefore : ∀ j < i, SameAt next ctx j := by
      intro j hj
      cases hUsed : usecols i with
      | true =>
        rw [show next = setColumn ctx i (reached d rpColCnt i) from if_pos hUsed]
        exact setColumn_of_ne ctx (by omega) _
      | false =>
        rw [show next = ctx from if_neg (by simp [hUsed])]
        exact ⟨rfl, rfl⟩
    have hRest : ((List.range' (i + 1) n).countP usecols : Int) ≤ rest := by
      rw [List.range'_succ, List.countP_cons] at hRemained
      cases hUsed : usecols i with
      | true => simp only [hUsed, if_true, rest] at hRemained ⊢; omega
      | false => simpa [rest, hUsed] using hRemained
    have hStep : buildUsed usecols rpColCnt i (n + 1) ctx (reached d rpColCnt i) remainedColCnt =
        if rest ≤ 0 then next else buildUsed usecols rpColCnt (i + 1) n next (reached d rpColCnt (i + 1)) rest := by
      rw [← reached_succ]
      rfl
    rw [hStep]
    rcases le_or_gt rest 0 with hNone | hSome
    · have hZero : (List.range' (i + 1) n).countP usecols = 0 := by omega
      rw [if_pos hNone]
      refine ⟨fun j hij hj hUsed => ?_, hBefore⟩
      rcases Nat.eq_or_lt_of_le hij with rfl | hlt
      · exact hNext hUsed
      · exact absurd hUsed (List.countP_eq_zero.mp hZero j (List.mem_range'_1.mpr ⟨hlt, by omega⟩))
    · rw [if_neg (not_le.mpr hSome)]
      obtain ⟨hLater, hEarlier⟩ := ih (i + 1) next rest hRest
      refine ⟨fun j hij hj hUsed => ?_, fun j hj => (hEarlier j (by omega)).trans (hBefore j hj)⟩
      rcases Nat.eq_or_lt_of_le hij with rfl | hlt
      · exact (hNext hUsed).of_same (hEarlier i (by omega))
      · exact hLater j hlt (by omega) hUsed

theorem buildData_used (ctx : ExpCtx) (d : Mem) (colCnt : Int) (rpColCnt : Nat) {usecols : Nat → Bool} {usecolCnt : Int}
    (hCount : ((List.range colCnt.toNat).countP usecols : Int) ≤ usecolCnt) {i : Nat} (hi : i < colCnt.toNat)
    (hUsed : usecols i = true) :
    Stores (buildData ctx d colCnt rpColCnt (some usecols) usecolCnt) i (reached d rpColCnt i) := by
  rw [List.range_eq_range'] at hCount
  have hStart : reached d rpColCnt 0 = d := by
    rw [reached, Nat.zero_min, columnAt]
  have hColumns := (buildUsed_columns d rpColCnt colCnt.toNat 0 ctx usecolCnt hCount).1 i
    (Nat.zero_le i) (by omega) hUsed
  rw [hStart] at hColumns
  exact hColumns

end Used

def IsNullColumn : Option Mem → Prop
  | none => True
  | some col => rpcolGetSize col = 0

/-- On the used columns `built` is what the row piece stores, and null behind it, and `all` is so too. -/
structure AgreesOnUsed (d : Mem) (colCnt : Int) (rpColCnt : Nat) (usecols : Nat → Bool) (built all : ExpCtx) :
    Prop where
  stored : ∀ i < colCnt.toNat, usecols i = true → i < rpColCnt →
    Stores built i (columnAt d i) ∧ all.columnVals i = built.columnVals i
  missing : ∀ i < colCnt.toNat, usecols i = true → rpColCnt ≤ i →
    IsNullColumn (built.columnVals i) ∧ IsNullColumn (all.columnVals i)

/-- The loop over the used columns agrees with the loop over all of them exactly when the row piece stores
every used column or ends with a null column. -/
theorem buildData_agreesOnUsed_iff (ctx : ExpCtx) (d : Mem) (colCnt : Int) (rpColCnt : Nat) (usecols : Nat → Bool)
    (usecolCnt : Int) (hCount : usecolCnt = (List.range colCnt.toNat).countP usecols) :
    AgreesOnUsed d colCnt rpColCnt usecols (buildData ctx d colCnt rpColCnt (some usecols) usecolCnt)
        (buildData ctx d colCnt rpColCnt none usecolCnt) ↔
      (∀ i < colCnt.toNat, usecols i = true → i < rpColCnt) ∨ rpcolGetSize (columnAt d (rpColCnt - 1)) = 0 := by
  have hUsed : ∀ i < colCnt.toNat, usecols i = true →
      Stores (buildData ctx d colCnt rpColCnt (some usecols) usecolCnt) i (reached d rpColCnt i) :=
    fun i hi hUsed => buildData_used ctx d colCnt rpColCnt hCount.ge hi hUsed
  have hLast : ∀ i, rpColCnt ≤ i → reached d rpColCnt i = columnAt d (rpColCnt - 1) := fun i hi => by
    rw [reached, min_eq_right (by omega)]
  constructor
  · intro hAgrees
    by_contra hNot
    obtain ⟨hMissing, hSize⟩ := not_or.mp hNot
    push Not at hMissing
    obtain ⟨i, hi, hUsedI, hle⟩ := hMissing
    have hNull := (hAgrees.missing i hi hUsedI hle).1
    rw [(hUsed i hi hUsedI).1, hLast i hle] at hNull
    exact hSize hNull
  · intro hCondition
    constructor
    · intro i hi hUsedI hlt
      have hStores := hUsed i hi hUsedI
      rw [reached_of_lt d hlt] at hStores
      exact ⟨hStores, by rw [buildData_all ctx d colCnt rpColCnt usecolCnt hi, if_pos hlt, hStores.1]⟩
    · intro i hi hUsedI hle
      rw [(hUsed i hi hUsedI).1, buildData_all ctx d colCnt rpColCnt usecolCnt hi, if_neg (not_lt.mpr hle), hLast i hle]
      refine ⟨?_, trivial⟩
      rcases hCondition with hStored | hNull
      · exact absurd (hStored i hi hUsedI) (not_lt.mpr hle)
      · exact hNull

def anyCtx : ExpCtx := ⟨fun _ => none, fun _ => 0⟩

/-- Both columns of a table, the second one not stored, and the first one null. -/
theorem null_row_agrees :
    AgreesOnUsed (ofBytes [0]) 2 1 (fun _ => true) (buildData anyCtx (ofBytes [0]) 2 1 (some fun _ => true) 2)
      (buildData anyCtx (ofBytes [0]) 2 1 none 2) :=
  (buildData_agreesOnUsed_iff anyCtx (ofBytes [0]) 2 1 (fun _ => true) 2 rfl).mpr (Or.inr (by decide))

/-- With a first column `A` the second one is `A` too. -/
theorem short_row_repeats_column :
    (2 : Int) = (List.range 2).countP (fun _ => true) ∧
      ¬AgreesOnUsed (ofBytes [1, 65]) 2 1 (fun _ => true)
        (buildData anyCtx (ofBytes [1, 65]) 2 1 (some fun _ => true) 2)
        (buildData anyCtx (ofBytes [1, 65]) 2 1 none 2) := by
  refine ⟨rfl, fun hAgrees => ?_⟩
  have hNull : rpcolGetSize (ofBytes [1, 65]) = 0 := (hAgrees.missing 1 (by decide) rfl le_rfl).1
  revert hNull
  decide

end CsdWorker.Tmax
