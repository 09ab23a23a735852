import CsdWorker.Filter

/-! # What `compare_like` decides

The loop adds the end of every match to the start of the next search instead of replacing it, and
the suffix test looks at the first occurrence of the last part. Both can only miss a match, so the
answer is right exactly when the string does not match or neither slip is met.
-/

namespace CsdWorker.Filter

open Memory Occurrence

set_option autoImplicit false

/-- The SQL meaning of a pattern whose only wildcard is `%`. -/
def sqlLike : Bytes → Bytes → Bool
  | [], s => s.isEmpty
  | c :: pattern, s =>
    if c = 37 then (List.range (s.length + 1)).any fun k => sqlLike pattern (s.drop k)
    else s.head? == some c && sqlLike pattern s.tail

/-- The parts have a placement in which each one starts at or after the sum of the ends of those
before it. -/
def SumPlaced (s : Bytes) : List Bytes → Nat → Prop
  | [], _ => True
  | t :: ts, n => ∃ i, n ≤ i ∧ OccursAt s t i ∧ SumPlaced s ts (n + (t.length + i))

theorem sumPlaced_mono {s : Bytes} {ts : List Bytes} {m n : Nat} (h : SumPlaced s ts n) (hmn : m ≤ n) :
    SumPlaced s ts m := by
  induction ts generalizing m n with
  | nil => trivial
  | cons t ts ih =>
    obtain ⟨i, hi, hOccurs, hRest⟩ := h
    exact ⟨i, hmn.trans hi, hOccurs, ih hRest (by omega)⟩

/-- The search takes the earliest occurrence, which leaves the most room. -/
theorem likeParts_iff {s : Bytes} {ts : List Bytes} (hne : ∀ t ∈ ts, t ≠ []) (n : Nat) :
    likeParts s ts n = true ↔ SumPlaced s ts n := by
  induction ts generalizing n with
  | nil => simp [likeParts, SumPlaced]
  | cons t ts ih =>
    have ht := hne t List.mem_cons_self
    have ih := ih fun x hx => hne x (List.mem_cons_of_mem _ hx)
    constructor
    · intro h
      rw [likeParts] at h
      cases hFind : findFrom s t n with
      | none => simp [hFind] at h
      | some i =>
        rw [hFind] at h
        obtain ⟨hi, hOccurs, -⟩ := (findFrom_eq_some_iff ht).mp hFind
        exact ⟨i, hi, hOccurs, (ih _).mp h⟩
    · rintro ⟨i, hi, hOccurs, hRest⟩
      obtain ⟨j, hj, hFind⟩ := findFrom_isSome ht hi hOccurs
      rw [likeParts, hFind]
      exact (ih _).mpr (sumPlaced_mono hRest (by omega))

section Split

theorem split_percent (pattern : Bytes) : split (37 :: pattern) 37 = split pattern 37 := by
  rw [split, ← List.nil_append (37 :: pattern), List.splitOn_append_cons_self_of_not_mem List.not_mem_nil]
  rfl

theorem split_literal {q : Bytes} (hq : q ≠ []) (hPercent : 37 ∉ q) : split q 37 = [q] := by
  rw [split, List.splitOn_eq_singleton hPercent, List.filter_cons_of_pos (by simpa using hq), List.filter_nil]

theorem split_append {q : Bytes} (hq : q ≠ []) (hPercent : 37 ∉ q) (pattern : Bytes) :
    split (q ++ 37 :: pattern) 37 = q :: split pattern 37 := by
  rw [split, List.splitOn_append_cons_self_of_not_mem hPercent, List.filter_cons_of_pos (by simpa using hq)]
  rfl

theorem split_ne_nil (pattern : Bytes) : ∀ t ∈ split pattern 37, t ≠ [] := by
  intro t ht
  simpa using (List.mem_filter.mp ht).2

theorem pattern_cases {motive : Bytes → Prop} (nil : motive [])
    (percent : ∀ rest, motive rest → motive (37 :: rest))
    (literal : ∀ q, q ≠ [] → 37 ∉ q → motive q)
    (part : ∀ q rest, q ≠ [] → 37 ∉ q → motive rest → motive (q ++ 37 :: rest)) (pattern : Bytes) :
    motive pattern := by
  induction hLength : pattern.length using Nat.strong_induction_on generalizing pattern with
  | h n ih =>
    subst hLength
    by_cases hMem : (37 : UInt8) ∈ pattern
    · obtain ⟨q, rest, rfl, hq⟩ := List.eq_append_cons_of_mem hMem
      have hRest := ih rest.length (by simp; omega) rest rfl
      by_cases hNil : q = []
      · subst hNil
        exact percent rest hRest
      · exact part q rest hNil hq hRest
    · by_cases hNil : pattern = []
      · subst hNil
        exact nil
      · exact literal pattern hNil hMem

end Split

section SqlLike

theorem sqlLike_percent (pattern s : Bytes) :
    sqlLike (37 :: pattern) s = true ↔ ∃ k, sqlLike pattern (s.drop k) = true := by
  rw [sqlLike, if_pos rfl, List.any_eq_true]
  constructor
  · rintro ⟨k, -, h⟩
    exact ⟨k, h⟩
  · rintro ⟨k, h⟩
    refine ⟨min k s.length, List.mem_range.mpr (by omega), ?_⟩
    rcases Nat.le_total k s.length with hk | hk
    · rwa [Nat.min_eq_left hk]
    · rwa [Nat.min_eq_right hk, List.drop_length, ← List.drop_eq_nil_of_le hk]

theorem sqlLike_append {q : Bytes} (hPercent : 37 ∉ q) (pattern s : Bytes) :
    sqlLike (q ++ pattern) s = true ↔ q <+: s ∧ sqlLike pattern (s.drop q.length) = true := by
  induction q generalizing s with
  | nil => simp
  | cons c q ih =>
    have hc : c ≠ 37 := fun h => hPercent (h ▸ List.mem_cons_self)
    rw [List.cons_append, sqlLike, if_neg hc]
    cases s with
    | nil => simp
    | cons b s =>
      rw [Bool.and_eq_true, beq_iff_eq, List.head?_cons, Option.some_inj, List.tail_cons,
        ih (fun h => hPercent (List.mem_cons_of_mem _ h)), List.cons_prefix_cons, List.length_cons, List.drop_succ_cons,
        and_assoc, eq_comm]

theorem sqlLike_literal {q : Bytes} (hPercent : 37 ∉ q) (s : Bytes) :
    sqlLike q s = true ↔ q <+: s ∧ s.length ≤ q.length := by
  have h := sqlLike_append hPercent [] s
  rwa [List.append_nil, sqlLike, List.isEmpty_iff, List.drop_eq_nil_iff] at h

/-- The pattern does not end with `%`; the empty rest of a pattern counts as ending with it. -/
def endAnchored (pattern : Bytes) : Bool := !pattern.isEmpty && pattern.getLast? != some 37

theorem endAnchored_append (q pattern : Bytes) : endAnchored (q ++ 37 :: pattern) = endAnchored pattern := by
  cases pattern <;> simp [endAnchored, List.getLast?_append, List.getLast?_cons]

theorem endAnchored_literal {q : Bytes} (hq : q ≠ []) (hPercent : 37 ∉ q) : endAnchored q = true := by
  have hLast : q.getLast? ≠ some 37 := fun h => hPercent (List.mem_of_getLast? h)
  simp [endAnchored, hq, hLast]

theorem exists_sqlLike_iff (s pattern : Bytes) (n : Nat) :
    (∃ k, n ≤ k ∧ sqlLike pattern (s.drop k) = true) ↔
      Placed s (endAnchored pattern) (split pattern 37) n := by
  induction pattern using pattern_cases generalizing n with
  | nil =>
    refine iff_of_true ⟨n + s.length, by omega, ?_⟩ (fun h => absurd h (by decide))
    rw [List.drop_eq_nil_of_le (by omega)]
    rfl
  | percent rest ih =>
    rw [split_percent, ← List.nil_append (37 :: rest), endAnchored_append, ← ih]
    simp only [List.nil_append, sqlLike_percent, List.drop_drop]
    constructor
    · rintro ⟨k, hk, j, h⟩
      exact ⟨k + j, by omega, h⟩
    · rintro ⟨k, hk, h⟩
      exact ⟨k, hk, 0, h⟩
  | literal q hq hPercent =>
    rw [split_literal hq hPercent, endAnchored_literal hq hPercent]
    constructor
    · rintro ⟨k, hk, h⟩
      obtain ⟨hOccurs, hEnd⟩ := (sqlLike_literal hPercent _).mp h
      rw [List.length_drop] at hEnd
      exact ⟨k, hk, hOccurs, fun _ => by omega⟩
    · rintro ⟨k, hk, hOccurs, hEnd⟩
      have hEnd := hEnd rfl
      refine ⟨k, hk, (sqlLike_literal hPercent _).mpr ⟨hOccurs, ?_⟩⟩
      rw [List.length_drop]
      omega
  | part q rest hq hPercent ih =>
    rw [split_append hq hPercent, endAnchored_append]
    simp only [sqlLike_append hPercent, sqlLike_percent, List.drop_drop, Placed, ← ih]
    constructor
    · rintro ⟨k, hk, hOccurs, j, h⟩
      exact ⟨k, hk, hOccurs, k + q.length + j, by omega, h⟩
    · rintro ⟨k, hk, hOccurs, j, hj, h⟩
      exact ⟨k, hk, hOccurs, j - (k + q.length), by rwa [Nat.add_sub_cancel' hj]⟩

end SqlLike

def OnlyAtEnd (s t : Bytes) : Prop := ∀ i, OccursAt s t i → i = s.length - t.length

theorem findFrom_end_iff {s t : Bytes} (ht : t ≠ []) :
    findFrom s t 0 = some (s.length - t.length) ↔ OccursAt s t (s.length - t.length) ∧ OnlyAtEnd s t := by
  rw [findFrom_eq_some_iff ht]
  constructor
  · rintro ⟨-, hOccurs, hFirst⟩
    refine ⟨hOccurs, fun i hi => ?_⟩
    have hLength := hi.le_length ht
    by_contra hne
    exact hFirst i (Nat.zero_le _) (by omega) hi
  · rintro ⟨hOccurs, hOnly⟩
    refine ⟨Nat.zero_le _, hOccurs, fun j _ hj hOccurs => ?_⟩
    exact hj.ne (hOnly j hOccurs)

theorem findFrom_zero_iff {s t : Bytes} (ht : t ≠ []) : findFrom s t 0 = some 0 ↔ OccursAt s t 0 := by
  rw [findFrom_eq_some_iff ht]
  exact ⟨fun h => h.2.1, fun h => ⟨le_rfl, h, fun j _ hj => absurd hj (Nat.not_lt_zero j)⟩⟩

/-- What follows a placed part can be placed without overlap, up to the end if the last part
occurs only there. -/
theorem placed_of_sumPlaced {s t : Bytes} {ts : List Bytes} {i : Nat} {anchored : Bool}
    (hOccurs : OccursAt s t i) (h : SumPlaced s ts (i + t.length))
    (hLast : anchored = true → OnlyAtEnd s ((t :: ts).getLast (by simp))) :
    Placed s anchored ts (i + t.length) := by
  induction ts generalizing t i with
  | nil =>
    intro hAnchored
    have hi := hLast hAnchored i hOccurs
    rw [List.getLast_singleton] at hi
    omega
  | cons t' ts ih =>
    obtain ⟨j, hj, hOccurs', hRest⟩ := h
    exact ⟨j, hj, hOccurs', ih hOccurs' (sumPlaced_mono hRest (by omega)) hLast⟩

theorem split_eq_nil {pattern : Bytes} (h : split pattern 37 = []) : ∀ c ∈ pattern, c = 37 := by
  induction pattern using pattern_cases with
  | nil => exact fun c hc => absurd hc List.not_mem_nil
  | percent rest ih =>
    rw [split_percent] at h
    exact List.forall_mem_cons.mpr ⟨rfl, ih h⟩
  | literal q hq hPercent => rw [split_literal hq hPercent] at h; cases h
  | part q rest hq hPercent => rw [split_append hq hPercent] at h; cases h

theorem endAnchored_of_split_eq_nil {pattern : Bytes} (h : split pattern 37 = []) :
    endAnchored pattern = false := by
  cases hLast : pattern.getLast? with
  | none => simp [endAnchored, List.getLast?_eq_none_iff.mp hLast]
  | some c => simp [endAnchored, hLast, split_eq_nil h c (List.mem_of_getLast? hLast)]

/-- The parts occur in order, the first at the start unless the pattern begins with `%`. -/
def StartPlaced (s : Bytes) (free anchored : Bool) : List Bytes → Prop
  | [] => True
  | t :: ts => ∃ i, (free = false → i = 0) ∧ OccursAt s t i ∧ Placed s anchored ts (i + t.length)

theorem startPlaced_start (s t : Bytes) (ts : List Bytes) (anchored : Bool) :
    StartPlaced s false anchored (t :: ts) ↔ OccursAt s t 0 ∧ Placed s anchored ts t.length := by
  simp [StartPlaced]

theorem startPlaced_free (s pattern : Bytes) :
    StartPlaced s true (endAnchored pattern) (split pattern 37) ↔
      Placed s (endAnchored pattern) (split pattern 37) 0 := by
  cases hParts : split pattern 37 with
  | nil => simp [StartPlaced, Placed, endAnchored_of_split_eq_nil hParts]
  | cons t ts => simp [StartPlaced, Placed]

theorem head?_ne_percent {q : Bytes} (hPercent : 37 ∉ q) : (q.head? == some 37) = false := by
  rw [beq_eq_false_iff_ne]
  exact fun h => hPercent (List.mem_of_mem_head? h)

theorem sqlLike_iff {pattern : Bytes} (hp : pattern ≠ []) (s : Bytes) :
    sqlLike pattern s = true ↔
      StartPlaced s (pattern.head? == some 37) (endAnchored pattern) (split pattern 37) := by
  cases pattern using pattern_cases with
  | nil => exact absurd rfl hp
  | percent rest =>
    have hEnd : endAnchored (37 :: rest) = endAnchored rest := endAnchored_append [] rest
    rw [split_percent, hEnd, List.head?_cons, beq_self_eq_true, startPlaced_free, ← exists_sqlLike_iff,
      sqlLike_percent]
    simp
  | literal q hq hPercent =>
    rw [split_literal hq hPercent, endAnchored_literal hq hPercent, head?_ne_percent hPercent,
      startPlaced_start, sqlLike_literal hPercent]
    simp [OccursAt, Placed]
  | part q rest hq hPercent =>
    have hHead : (q ++ 37 :: rest).head? = q.head? := List.head?_append_of_ne_nil _ hq
    rw [split_append hq hPercent, endAnchored_append, hHead, head?_ne_percent hPercent, startPlaced_start,
      ← exists_sqlLike_iff, sqlLike_append hPercent, sqlLike_percent]
    simp only [List.drop_drop, OccursAt, List.drop_zero]
    refine and_congr_right fun _ => ⟨?_, ?_⟩
    · rintro ⟨k, h⟩
      exact ⟨q.length + k, by omega, h⟩
    · rintro ⟨k, hk, h⟩
      exact ⟨k - q.length, by rwa [Nat.add_sub_cancel' hk]⟩

def LastOnlyAtEnd (s pattern : Bytes) : Prop :=
  endAnchored pattern = true → ∀ last ∈ (split pattern 37).getLast?, OnlyAtEnd s last

theorem getD_zero_iff {pattern : Bytes} (hp : pattern ≠ []) :
    pattern.getD 0 0 ≠ 37 ↔ (pattern.head? == some 37) = false := by
  cases pattern with
  | nil => exact absurd rfl hp
  | cons c pattern => simp

theorem getD_last_iff {pattern : Bytes} (hp : pattern ≠ []) :
    pattern.getD (pattern.length - 1) 0 ≠ 37 ↔ endAnchored pattern = true := by
  obtain ⟨pattern, c, rfl⟩ := List.eq_nil_or_concat pattern |>.resolve_left hp
  simp [endAnchored]

theorem like_eq_true_iff_tests {pattern : Bytes} (hp : pattern ≠ []) (s : Bytes) :
    ∃ passed, like s pattern = some passed ∧ (passed = true ↔
      SumPlaced s (split pattern 37) 0 ∧
      ((pattern.head? == some 37) = false → ∀ first ∈ (split pattern 37).head?, OccursAt s first 0) ∧
      (endAnchored pattern = true → ∀ last ∈ (split pattern 37).getLast?,
        OccursAt s last (s.length - last.length) ∧ OnlyAtEnd s last)) := by
  have hne := split_ne_nil pattern
  rw [← likeParts_iff hne, ← getD_zero_iff hp, ← getD_last_iff hp, like]
  by_cases hPlaced : likeParts s (split pattern 37) 0 = true
  · cases hParts : split pattern 37 with
    | nil =>
      have hHead : pattern.getD 0 0 = 37 := by
        obtain ⟨c, rest, rfl⟩ := List.exists_cons_of_ne_nil hp
        exact split_eq_nil hParts c List.mem_cons_self
      have hLast : pattern.getD (pattern.length - 1) 0 = 37 := by
        by_contra h
        rw [← ne_eq, getD_last_iff hp, endAnchored_of_split_eq_nil hParts] at h
        cases h
      refine ⟨true, ?_, by simp [likeParts]⟩
      simp only [hHead, hLast, likeParts, ne_eq, not_true_eq_false, if_true, if_false]
      rfl
    | cons t ts =>
      rw [hParts] at hne hPlaced
      have hFirst := findFrom_zero_iff (s := s) (hne t List.mem_cons_self)
      have hLast := findFrom_end_iff (s := s) (hne _ (List.getLast_mem (List.cons_ne_nil t ts)))
      have hGetLast := List.getLast?_eq_some_getLast (List.cons_ne_nil t ts)
      simp only [hPlaced, hGetLast, List.head?_cons, if_true, Option.mem_some_iff, forall_eq', ← hFirst, ← hLast]
      generalize pattern.getD 0 0 = c, pattern.getD (pattern.length - 1) 0 = d
      by_cases hc : c = 37 <;> by_cases hd : d = 37 <;> simp [hc, hd]
  · simp [hPlaced]

theorem like_eq_true_iff {pattern : Bytes} (hp : pattern ≠ []) (s : Bytes) :
    ∃ passed, like s pattern = some passed ∧ (passed = true ↔
      sqlLike pattern s = true ∧ SumPlaced s (split pattern 37) 0 ∧ LastOnlyAtEnd s pattern) := by
  obtain ⟨passed, hLike, hPassed⟩ := like_eq_true_iff_tests hp s
  refine ⟨passed, hLike, hPassed.trans ?_⟩
  have hne := split_ne_nil pattern
  rw [sqlLike_iff hp, LastOnlyAtEnd]
  cases hParts : split pattern 37 with
  | nil => simp [StartPlaced, SumPlaced]
  | cons t ts =>
    rw [hParts] at hne
    have hGetLast := List.getLast?_eq_some_getLast (List.cons_ne_nil t ts)
    simp only [hGetLast, List.head?_cons, Option.mem_some_iff, forall_eq']
    constructor
    · rintro ⟨⟨i, hi, hOccurs, hRest⟩, hFirst, hLast⟩
      refine ⟨?_, ⟨i, hi, hOccurs, hRest⟩, fun hEnd => (hLast hEnd).2⟩
      have hOnly := fun hEnd => (hLast hEnd).2
      by_cases hHead : (pattern.head? == some 37) = false
      · have hStart := placed_of_sumPlaced (hFirst hHead) (sumPlaced_mono hRest (by omega)) hOnly
        exact ⟨0, fun _ => rfl, hFirst hHead, hStart⟩
      · exact ⟨i, fun h => absurd h hHead, hOccurs,
          placed_of_sumPlaced hOccurs (sumPlaced_mono hRest (by omega)) hOnly⟩
    · rintro ⟨⟨i, hStart, hOccurs, hPlaced⟩, hSum, hOnly⟩
      refine ⟨hSum, fun hHead => hStart hHead ▸ hOccurs, fun hEnd => ⟨?_, hOnly hEnd⟩⟩
      rw [hEnd] at hPlaced
      have hAll : Placed s true (t :: ts) 0 := ⟨i, Nat.zero_le i, hOccurs, hPlaced⟩
      exact hAll.last_occursAt hne hGetLast

theorem like_nil (s : Bytes) : like s [] = none := by
  rfl

theorem like_eq_sqlLike_iff (s pattern : Bytes) :
    like s pattern = some (sqlLike pattern s) ↔ pattern ≠ [] ∧
      (sqlLike pattern s = true → SumPlaced s (split pattern 37) 0 ∧ LastOnlyAtEnd s pattern) := by
  by_cases hp : pattern = []
  · subst hp
    simp [like_nil]
  · obtain ⟨passed, hLike, hPassed⟩ := like_eq_true_iff hp s
    rw [hLike, Option.some_inj, Bool.eq_iff_iff, hPassed]
    constructor
    · intro hSame
      exact ⟨hp, fun hSql => (hSame.mpr hSql).2⟩
    · rintro ⟨-, hSurvives⟩
      exact ⟨And.left, fun hSql => ⟨hSql, hSurvives hSql⟩⟩

/-- `compare_like` answers the SQL meaning exactly when the pattern is not empty and a match also
survives the two slips: the parts can be placed behind the sums of the ends of the parts before
them, and an anchored last part occurs only at the end. -/
theorem compareLike_eq_sqlLike_iff (u : KValue) (row : Mem) (filtering : Filtering) (offsets : List Int)
    (lv rv : KValue) (schemaInfo schemaLv schemaRv : SchemaInfo)
    (hLv : (calculOperandValue u row filtering.lv offsets none).run schemaInfo = some (lv, schemaLv))
    (hRv : (calculOperandValue u row filtering.rv offsets none).run schemaLv = some (rv, schemaRv)) :
    (compareLike u row filtering offsets).run schemaInfo =
        some (sqlLike rv.string_ lv.string_, schemaRv) ↔
      rv.string_ ≠ [] ∧ (sqlLike rv.string_ lv.string_ = true →
        SumPlaced lv.string_ (split rv.string_ 37) 0 ∧ LastOnlyAtEnd lv.string_ rv.string_) := by
  rw [← like_eq_sqlLike_iff, compareLike, StateT.run_bind, hLv]
  simp only [Option.bind_eq_bind, Option.bind_some, StateT.run_bind, hRv]
  cases hLike : like lv.string_ rv.string_ with
  | none => simp [liftM, monadLift, MonadLift.monadLift, StateT.lift, StateT.run]
  | some passed => simp [liftM, monadLift, MonadLift.monadLift, StateT.lift, StateT.run]

def likeFiltering (s pattern : String) : Filtering :=
  { lv := ⟨[.string], [bytesOf s]⟩, operator := .like, rv := ⟨[.string], [bytesOf pattern]⟩ }

theorem onlyAtEnd_of_forall_le {s t : Bytes} (ht : t ≠ [])
    (h : ∀ i < s.length + 1, OccursAt s t i → i = s.length - t.length) : OnlyAtEnd s t := by
  intro i hi
  have hLength := hi.le_length ht
  exact h i (by omega) hi

theorem promo_steel_like :
    (compareLike KValue.zero zeroed (likeFiltering "PROMO STEEL" "PROMO%STEEL") [0]).run emptySchema =
      some (true, emptySchema) := by
  refine (compareLike_eq_sqlLike_iff KValue.zero zeroed (likeFiltering "PROMO STEEL" "PROMO%STEEL") [0]
    { KValue.zero with type_ := .string, string_ := bytesOf "PROMO STEEL" }
    { KValue.zero with type_ := .string, string_ := bytesOf "PROMO%STEEL" } emptySchema emptySchema emptySchema
    rfl rfl).mpr ⟨by decide, fun _ => ⟨?_, fun _ last hLast => ?_⟩⟩
  · exact ⟨0, by decide, by decide, 6, by decide, by decide, trivial⟩
  · cases hLast
    exact onlyAtEnd_of_forall_le (by decide) (by decide)

/-- `'aba' LIKE '%a'` holds, but the first `a` is not the last byte. -/
theorem aba_like_suffix_missed :
    sqlLike (bytesOf "%a") (bytesOf "aba") = true ∧
      (compareLike KValue.zero zeroed (likeFiltering "aba" "%a") [0]).run emptySchema =
        some (false, emptySchema) := by
  decide

end CsdWorker.Filter
