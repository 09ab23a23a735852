import CsdWorker.FilterComparison

/-! # IN

`compare_in` against `compare_eq`, on operands with a numeric value or a string. `compare_in` evaluates the first token
of its left operand only.
-/

namespace CsdWorker.Filter

open Memory

set_option autoImplicit false

section In

def inFiltering (lv : Operand) (literals : List Literal) : Filtering :=
  ⟨lv, .inList, ⟨literals.map Literal.type, literals.map Literal.text⟩⟩

/-- IN is true exactly when EQ is with some literal of the list. -/
def InAgrees (row : Mem) (offsets : List Int) (schemaInfo : SchemaInfo) (lv : Operand) (literals : List Literal)
    (u : KValue) : Prop :=
  ∃ passed, (compareIn u row (inFiltering lv literals) offsets).run' schemaInfo = some passed ∧
    (passed = true ↔ ∃ literal ∈ literals, (compareEq u row ⟨lv, .eq, literal.operand⟩ offsets).run' schemaInfo =
      some true)

def among (literals : List Literal) (x : Value) : Bool :=
  literals.any fun literal => x.compareWith (fun a b => a == b) (fun a b => a == b) literal.value

/-- `n` is found, or it is not, before a text that is not a number is reached. -/
def ReadsIn (n : Int) (texts : List Bytes) : Bool → Prop
  | true => ∃ before text after, texts = before ++ text :: after ∧ (∀ t ∈ before, (stoi t).isSome) ∧ stoi text = some n
  | false => ∀ t ∈ texts, ∃ m, stoi t = some m ∧ n ≠ m

/-- A value of type `INT32` or `STRING` is in the list or is not, as `found` says; one of another type never is. -/
def TokenAgrees (texts : List Bytes) (found : Bool) (v : KValue) : Prop :=
  match v.type_ with
  | .int32 => ReadsIn v.int_ texts found
  | .string => decide (v.string_ ∈ texts) = found
  | _ => found = false

/-- What `compare_in` does once the value is there. -/
def inValues (texts : List Bytes) (v : KValue) : Option Bool :=
  match v.type_ with
  | .int32 => intIn v.int_ texts
  | .string => some (decide (v.string_ ∈ texts))
  | _ => some false

/-- What a single token is to `compare_in`: an integer, a string, a value of another type, or one whose type nothing has
set. -/
inductive TokenValue where
  | int (n : Int)
  | text (t : Bytes)
  | other
  | unset

def TokenValue.Agrees (texts : List Bytes) (found : Bool) : TokenValue → Prop
  | int n => ReadsIn n texts found
  | text t => decide (t ∈ texts) = found
  | other => found = false
  | unset => texts = []

def literalToken (type : KetiValueType) (text : Bytes) : Option TokenValue :=
  match type with
  | .int8 | .int16 | .int32 | .date => (stoi text).map .int
  | .string => some (.text text)
  | .int64 => (stoll text).map fun _ => .other
  | .float32 => (stof text).map fun _ => .other
  | .double | .decimal => (stod text).map fun _ => .other
  | .timestamp | .column | .operator | .boolean | .undefined _ => some .unset

/-- A column by its name: its type in the schema and the bytes it has in the row. -/
def columnToken (row : Mem) (offsets : List Int) (schemaInfo : SchemaInfo) (name : Bytes) : Option TokenValue := do
  let columnIndex := (schemaInfo.columnIndexMap.lookup name).getD 0
  let type ← schemaInfo.columnType[columnIndex]?
  let startOffset ← offsets[columnIndex]?
  let endOffset ← offsets[columnIndex + 1]?
  let bytesBehind (tune : Int) := slice row (startOffset + tune) (endOffset - startOffset - tune)
  match type with
  | .byte | .int16 | .int32 | .date => (bytesBehind 0).map fun bytes => .int (zeroExtended 4 bytes)
  | .int64 | .newDecimal => (bytesBehind 0).map fun _ => .other
  | .string => (bytesBehind 0).map fun bytes => .text (trim bytes)
  | .varString => (bytesBehind (if endOffset - startOffset < 255 then 1 else 2)).map fun bytes => .text (trim bytes)
  | .float32 | .double | .timestamp | .undefined _ => some .unset

def tokenValue (row : Mem) (offsets : List Int) (schemaInfo : SchemaInfo) (type : KetiValueType) (text : Bytes) :
    Option TokenValue :=
  if type = .column then columnToken row offsets schemaInfo text else literalToken type text

/-- The condition for a column or a literal, for a derived operand and for a postfix expression. Of the last the
first token decides. -/
def InKept (row : Mem) (offsets : List Int) (schemaInfo : SchemaInfo) (lv : Operand) (literals : List Literal)
    (x : Value) : Prop :=
  if lv.types.length = 1 then x.type = .int32 ∨ x.type = .string ∨ among literals x = false
  else if lv.types[0]? = some .operator then literals = []
  else ∃ type text token, lv.types[0]? = some type ∧ lv.values[0]? = some text ∧
    tokenValue row offsets schemaInfo type text = some token ∧
    token.Agrees (literals.map Literal.text) (among literals x)

section Reads
variable {n m : Int} {text : Bytes} {texts : List Bytes} {found : Bool}

/-- The first text is the one, or it is a number and the search goes on. -/
theorem readsIn_cons_iff :
    ReadsIn n (text :: texts) found ↔ ∃ m, stoi text = some m ∧
      if n = m then found = true else ReadsIn n texts found := by
  cases found with
  | true =>
    constructor
    · rintro ⟨before, hit, after, hTexts, hBefore, hHit⟩
      cases before with
      | nil =>
        obtain ⟨rfl, rfl⟩ := List.cons_eq_cons.mp hTexts
        exact ⟨n, hHit, by rw [if_pos rfl]⟩
      | cons first before =>
        obtain ⟨rfl, rfl⟩ := List.cons_eq_cons.mp hTexts
        obtain ⟨hFirst, hRest⟩ := List.forall_mem_cons.mp hBefore
        obtain ⟨m, hm⟩ := Option.isSome_iff_exists.mp hFirst
        refine ⟨m, hm, ?_⟩
        split
        · rfl
        · exact ⟨before, hit, after, rfl, hRest, hHit⟩
    · rintro ⟨m, hm, hRest⟩
      split at hRest
      · rename_i hEq
        exact ⟨[], text, texts, rfl, by simp, hEq ▸ hm⟩
      · obtain ⟨before, hit, after, rfl, hBefore, hHit⟩ := hRest
        have hFirst : (stoi text).isSome := by rw [hm]; rfl
        exact ⟨text :: before, hit, after, rfl, List.forall_mem_cons.mpr ⟨hFirst, hBefore⟩, hHit⟩
  | false =>
    rw [ReadsIn, List.forall_mem_cons]
    constructor
    · rintro ⟨⟨m, hm, hNe⟩, hRest⟩
      exact ⟨m, hm, by rwa [if_neg hNe]⟩
    · rintro ⟨m, hm, hRest⟩
      split at hRest
      · cases hRest
      · rename_i hNe
        exact ⟨⟨m, hm, hNe⟩, hRest⟩

theorem intIn_eq_some_iff : intIn n texts = some found ↔ ReadsIn n texts found := by
  induction texts with
  | nil =>
    cases found with
    | true => simp [intIn, ReadsIn]
    | false => simp [intIn, ReadsIn]
  | cons text texts ih =>
    rw [intIn, readsIn_cons_iff, Option.bind_eq_bind, Option.bind_eq_some_iff]
    refine exists_congr fun m => and_congr_right fun _ => ?_
    split
    · rw [Option.some_inj, eq_comm]
    · exact ih

end Reads

section Token
variable {u : KValue} {row : Mem} {offsets : List Int} {s : SchemaInfo} {lv : Operand} {literals : List Literal}
    {x : Value}

theorem compareIn_eq (filtering : Filtering) : compareIn u row filtering offsets = (do
    let lv ← calculOperandValue u row filtering.lv offsets (some 0)
    liftM (inValues filtering.rv.values lv)) := by
  rw [compareIn]
  refine bind_congr fun lv => ?_
  rw [inValues]
  cases lv.type_ <;> rfl

theorem inValues_eq_some_iff {texts : List Bytes} {found : Bool} {v : KValue} :
    inValues texts v = some found ↔ TokenAgrees texts found v := by
  rw [inValues, TokenAgrees]
  split
  · exact intIn_eq_some_iff
  · exact Option.some_inj
  · exact Option.some_inj.trans eq_comm

theorem compareIn_eq_some_iff (found : Bool) :
    (compareIn u row (inFiltering lv literals) offsets).run' s = some found ↔
      ∃ v, (calculOperandValue u row lv offsets (some 0)).run' s = some v ∧
        TokenAgrees (literals.map Literal.text) found v := by
  have hAnswer : ∀ v, Query (liftM (inValues (literals.map Literal.text) v) : Eval Bool) fun _ => True :=
    fun v => Query.lift fun _ _ => trivial
  have hLift : ∀ v, (liftM (inValues (literals.map Literal.text) v) : Eval Bool).run' s =
      inValues (literals.map Literal.text) v := by
    intro v
    cases inValues (literals.map Literal.text) v <;> rfl
  rw [compareIn_eq]
  change (calculOperandValue u row lv offsets (some 0) >>= fun v =>
    liftM (inValues (literals.map Literal.text) v)).run' s = some found ↔ _
  rw [Query.run'_bind (query_calculOperandValue u row lv offsets (some 0)) fun v _ => hAnswer v,
    Option.bind_eq_some_iff]
  refine exists_congr fun v => and_congr_right fun _ => ?_
  rw [hLift, inValues_eq_some_iff]

theorem inAgrees_iff_eq_among (hValue : HasValue row offsets s lv x)
    (hTypes : ∀ literal ∈ literals, literal.value.type = x.type) :
    InAgrees row offsets s lv literals u ↔
      (compareIn u row (inFiltering lv literals) offsets).run' s = some (among literals x) := by
  have hEq : (∃ literal ∈ literals, (compareEq u row ⟨lv, .eq, literal.operand⟩ offsets).run' s = some true) ↔
      among literals x = true := by
    rw [among, List.any_eq_true]
    refine exists_congr fun literal => and_congr_right fun hMem => ?_
    have hLeft : HasValue row offsets s (Filtering.mk lv .eq literal.operand).lv x := hValue
    have hRight : HasValue row offsets s (Filtering.mk lv .eq literal.operand).rv literal.value :=
      hasValue_literal row offsets s literal
    rw [compareEq, compareBy_of_hasValue hLeft hRight (hTypes literal hMem), Option.some_inj]
  rw [InAgrees, hEq]
  constructor
  · rintro ⟨passed, hRun, hPassed⟩
    rw [hRun, Bool.eq_iff_iff.mpr hPassed]
  · intro hRun
    exact ⟨_, hRun, Iff.rfl⟩

/-! The left operand is a single token. -/

theorem readsIn_among {n : Number} (h : ∀ literal ∈ literals, literal.value.type = .int32) :
    ReadsIn n.number (literals.map Literal.text) (among literals (.number n)) := by
  induction literals with
  | nil =>
    intro t ht
    cases ht
  | cons literal literals ih =>
    obtain ⟨hFirst, hRest⟩ := List.forall_mem_cons.mp h
    obtain ⟨y, hValue, hText⟩ := stoi_of_literal hFirst
    rw [List.map_cons, readsIn_cons_iff, among, List.any_cons, hValue, Value.compareWith]
    refine ⟨y.number, hText, ?_⟩
    split
    · rename_i hEq
      rw [hEq, beq_self_eq_true, Bool.true_or]
    · rename_i hNe
      rw [beq_eq_false_iff_ne.mpr hNe, Bool.false_or]
      exact ih hRest

theorem mem_texts_eq_among {t : Bytes} (h : ∀ literal ∈ literals, literal.value.type = .string) :
    decide (t ∈ literals.map Literal.text) = among literals (.string t) := by
  rw [Bool.eq_iff_iff, decide_eq_true_iff, among, List.any_eq_true, List.mem_map]
  refine exists_congr fun literal => and_congr_right fun hMem => ?_
  rw [text_of_literal (h literal hMem), Value.compareWith, beq_iff_eq, eq_comm]

theorem tokenAgrees_of_value? {v : KValue} (hValue : v.value? = some x)
    (hTypes : ∀ literal ∈ literals, literal.value.type = x.type) :
    TokenAgrees (literals.map Literal.text) (among literals x) v ↔
      x.type = .int32 ∨ x.type = .string ∨ among literals x = false := by
  rw [TokenAgrees, type_of_value? hValue]
  cases x with
  | number n =>
    have hNumber := value?_eq_number_iff.mp hValue
    cases hKind : n.kind with
    | int32 =>
      simp only [Value.type, hKind, NumberKind.type] at hTypes ⊢
      rw [int_of_number? hNumber hKind]
      exact iff_of_true (readsIn_among hTypes) (Or.inl trivial)
    | int64 => simp [Value.type, hKind, NumberKind.type]
    | decimal => simp [Value.type, hKind, NumberKind.type]
  | string t =>
    rw [(value?_eq_string_iff.mp hValue).2]
    exact iff_of_true (mem_texts_eq_among hTypes) (Or.inr (Or.inl rfl))

/-! The left operand has several tokens. The first one is evaluated like an operand of its own; the name of a function
has no value. -/

theorem forall_tokenAgrees_fresh_iff (found : Bool) (texts : List Bytes) (hFound : texts = [] → found = false) :
    (∀ u : KValue, TokenAgrees texts found u.fresh) ↔ texts = [] := by
  constructor
  · intro h
    cases texts with
    | nil => rfl
    | cons text texts =>
      have hFalse : found = false := h { KValue.zero with type_ := .boolean }
      subst hFalse
      -- the unset integer may be the first number of the list
      obtain ⟨⟨m, hm, -⟩, -⟩ := List.forall_mem_cons.mp (h KValue.zero)
      obtain ⟨⟨m', hm', hNe⟩, -⟩ := List.forall_mem_cons.mp (h { KValue.zero with int_ := m })
      rw [hm, Option.some_inj] at hm'
      exact absurd hm' hNe
  · rintro rfl u
    rw [hFound rfl, TokenAgrees]
    split
    · intro t ht
      cases ht
    · exact decide_eq_false List.not_mem_nil
    · rfl

theorem value_of_derived {v : KValue} (hMany : lv.types.length ≠ 1) (hOperator : lv.types[0]? = some .operator)
    (h : (calculOperandValue u row lv offsets none).run' s = some v) : ∃ value, lv.values[0]? = some value := by
  cases hValue : lv.values[0]? with
  | none => simp [calculOperandValue, getDerivedValue, hMany, hOperator, hValue] at h
  | some value => exact ⟨value, rfl⟩

/-- IN of the first token is the right answer, whatever the indeterminate members hold. -/
def FirstAgrees (row : Mem) (offsets : List Int) (s : SchemaInfo) (lv : Operand) (literals : List Literal) (x : Value) :
    Prop :=
  ∀ u, ∃ v, (calculOperandValue u row lv offsets (some 0)).run' s = some v ∧
    TokenAgrees (literals.map Literal.text) (among literals x) v

theorem firstAgrees_single_iff (hOne : lv.types.length = 1) (hValue : HasValue row offsets s lv x)
    (hTypes : ∀ literal ∈ literals, literal.value.type = x.type) :
    FirstAgrees row offsets s lv literals x ↔ x.type = .int32 ∨ x.type = .string ∨ among literals x = false := by
  constructor
  · intro h
    obtain ⟨v, hRun, hAgrees⟩ := h KValue.zero
    obtain ⟨v', hRun', hx⟩ := hValue KValue.zero
    rw [calculOperandValue_single KValue.zero row offsets hOne, hRun, Option.some_inj] at hRun'
    subst hRun'
    exact (tokenAgrees_of_value? hx hTypes).mp hAgrees
  · intro h u
    obtain ⟨v, hRun, hx⟩ := hValue u
    rw [calculOperandValue_single u row offsets hOne] at hRun
    exact ⟨v, hRun, (tokenAgrees_of_value? hx hTypes).mpr h⟩

inductive TokenValue.Shows (u : KValue) : KValue → TokenValue → Prop
  | int {v : KValue} (type : v.type_ = .int32) : Shows u v (.int v.int_)
  | text {v : KValue} (type : v.type_ = .string) : Shows u v (.text v.string_)
  | other {v : KValue} (ne_int32 : v.type_ ≠ .int32) (ne_string : v.type_ ≠ .string) : Shows u v .other
  | unset : Shows u u.fresh .unset

theorem rel_lift {α : Type} (o : Option α) (f : α → KValue) (g : α → TokenValue)
    (h : ∀ a, TokenValue.Shows u (f a) (g a)) :
    Option.Rel (TokenValue.Shows u) ((do let a ← o; pure (f a) : Eval KValue).run' s) (o.map g) := by
  cases o with
  | none => exact .none
  | some a => exact .some (h a)

theorem rel_literalToken (type : KetiValueType) (text : Bytes) :
    Option.Rel (TokenValue.Shows u) ((getLiteralValue u ⟨[type], [text]⟩ 0).run' s) (literalToken type text) := by
  cases type with
  | int8 | int16 | int32 | date =>
    exact rel_lift (stoi text) (fun n => { u.fresh with int_ := n, type_ := .int32 }) _ fun n => .int rfl
  | int64 =>
    exact rel_lift (stoll text) (fun n => { u.fresh with int64_ := n, type_ := .int64 }) _
      fun n => .other (by simp) (by simp)
  | float32 =>
    exact rel_lift (stof text) (fun x => { u.fresh with double_ := x.toFloat, type_ := .float32 }) _
      fun x => .other (by simp) (by simp)
  | double =>
    exact rel_lift (stod text) (fun x => { u.fresh with double_ := x, type_ := .double }) _
      fun x => .other (by simp) (by simp)
  | decimal =>
    exact rel_lift (stod text) (fun x => { u.fresh with
      double_ := x, int64_ := (x * 100).toInt64.toInt, real_ := 1, type_ := .decimal }) _ fun x =>
        .other (by simp) (by simp)
  | string => exact .some (.text rfl)
  | _ => exact .some .unset

/-- The name is inserted if it is missing, and read as that of column 0. -/
theorem rel_columnToken (name : Bytes) :
    Option.Rel (TokenValue.Shows u) ((getColumnValue u row ⟨[.column], [name]⟩ offsets 0).run' s)
      (columnToken row offsets s name) := by
  obtain ⟨s', hIndex, hSame⟩ := columnIndexAt_run name s
  simp only [columnToken, columnType_eq_of_equiv hSame]
  rw [getColumnValue, StateT.run'_eq, List.getElem?_cons_zero, lift_some_bind, StateT.run_bind, hIndex,
    Option.bind_eq_bind, Option.bind_some, ← StateT.run'_eq, run'_get_bind, run'_lift_bind]
  cases s'.columnType[(s.columnIndexMap.lookup name).getD 0]? with
  | none => exact .none
  | some type =>
    rw [Option.bind_some, run'_lift_bind]
    cases offsets[(s.columnIndexMap.lookup name).getD 0]? with
    | none => exact .none
    | some startOffset =>
      rw [Option.bind_some, run'_lift_bind]
      cases offsets[(s.columnIndexMap.lookup name).getD 0 + 1]? with
      | none => exact .none
      | some endOffset =>
        rw [Option.bind_some]
        cases type with
        | byte | int16 | int32 | date =>
          simp only [add_zero, sub_zero]
          exact rel_lift (slice row startOffset (endOffset - startOffset))
            (fun bytes => { u.fresh with int_ := zeroExtended 4 bytes, type_ := .int32 }) _ fun bytes => .int rfl
        | int64 =>
          simp only [add_zero, sub_zero]
          exact rel_lift (slice row startOffset (endOffset - startOffset))
            (fun bytes => { u.fresh with int64_ := zeroExtended 8 bytes, type_ := .int64 }) _
            fun bytes => .other (by simp) (by simp)
        | newDecimal =>
          simp only [add_zero, sub_zero]
          exact rel_lift (slice row startOffset (endOffset - startOffset))
            (fun bytes => { u.fresh with int64_ := newDecimalValue (ofBytes bytes), real_ := 1, type_ := .decimal }) _
            fun bytes => .other (by simp) (by simp)
        | string | varString =>
          exact rel_lift (slice row _ _) (fun bytes => { u.fresh with string_ := trim bytes, type_ := .string }) _
            fun bytes => .text rfl
        | _ => exact .some .unset

theorem rel_tokenValue (u : KValue) (row : Mem) (offsets : List Int) (s : SchemaInfo) (type : KetiValueType)
    (text : Bytes) :
    Option.Rel (TokenValue.Shows u) ((calculOperandValue u row ⟨[type], [text]⟩ offsets none).run' s)
      (tokenValue row offsets s type text) := by
  rw [tokenValue]
  change Option.Rel _ ((if type = .column then _ else _ : Eval KValue).run' s) _
  split
  · rename_i hColumn
    rw [hColumn]
    exact rel_columnToken text
  · exact rel_literalToken type text

theorem tokenAgrees_of_shows {texts : List Bytes} {found : Bool} {v : KValue} {token : TokenValue}
    (h : TokenValue.Shows u v token) (hSet : token ≠ .unset) :
    TokenAgrees texts found v ↔ token.Agrees texts found := by
  rw [TokenAgrees]
  cases h with
  | int type => rw [type]; rfl
  | text type => rw [type]; rfl
  | other hInt32 hString =>
    split
    · exact absurd ‹_› hInt32
    · exact absurd ‹_› hString
    · rfl
  | unset => exact absurd rfl hSet

theorem forall_tokenAgrees_iff {value : KValue → Option KValue} {token : TokenValue} {texts : List Bytes} {found : Bool}
    (hShows : ∀ u, Option.Rel (TokenValue.Shows u) (value u) (some token)) (hFound : texts = [] → found = false) :
    (∀ u, ∃ v, value u = some v ∧ TokenAgrees texts found v) ↔ token.Agrees texts found := by
  have hValue : ∀ u, ∃ v, value u = some v ∧ TokenValue.Shows u v token := by
    intro u
    have hRel := hShows u
    generalize value u = o at hRel
    cases hRel with
    | some hv => exact ⟨_, rfl, hv⟩
  by_cases hSet : token = .unset
  · subst hSet
    have hFresh : ∀ u, value u = some u.fresh := by
      intro u
      obtain ⟨v, hv, hUnset⟩ := hValue u
      cases hUnset
      exact hv
    simp only [hFresh, Option.some_inj, exists_eq_left']
    exact forall_tokenAgrees_fresh_iff found texts hFound
  · constructor
    · intro h
      obtain ⟨v, hv, hToken⟩ := hValue KValue.zero
      obtain ⟨v', hv', hAgrees⟩ := h KValue.zero
      obtain rfl := Option.some_inj.mp (hv.symm.trans hv')
      exact (tokenAgrees_of_shows hToken hSet).mp hAgrees
    · intro h u
      obtain ⟨v, hv, hToken⟩ := hValue u
      exact ⟨v, hv, (tokenAgrees_of_shows hToken hSet).mpr h⟩

theorem firstAgrees_iff_token :
    FirstAgrees row offsets s lv literals x ↔
      ∃ type text token, lv.types[0]? = some type ∧ lv.values[0]? = some text ∧
        tokenValue row offsets s type text = some token ∧
        token.Agrees (literals.map Literal.text) (among literals x) := by
  have hFound : literals.map Literal.text = [] → among literals x = false := by
    intro h
    rw [List.map_eq_nil_iff.mp h]
    rfl
  have hRel : ∀ {type text}, lv.types[0]? = some type → lv.values[0]? = some text → ∀ u, Option.Rel (TokenValue.Shows u)
      ((calculOperandValue u row lv offsets (some 0)).run' s) (tokenValue row offsets s type text) := by
    intro type text hType hFirst u
    rw [calculOperandValue_token u row offsets hType hFirst]
    exact rel_tokenValue u row offsets s type text
  constructor
  · intro h
    obtain ⟨v, hRun, -⟩ := h KValue.zero
    obtain ⟨type, text, hType, hFirst⟩ := token_of_run' hRun
    cases hValue : tokenValue row offsets s type text with
    | none =>
      have hNone := hRel hType hFirst KValue.zero
      rw [hRun, hValue] at hNone
      cases hNone
    | some token =>
      have hShows := hRel hType hFirst
      rw [hValue] at hShows
      exact ⟨type, text, token, hType, hFirst, hValue, (forall_tokenAgrees_iff hShows hFound).mp h⟩
  · rintro ⟨type, text, token, hType, hFirst, hValue, hAgrees⟩
    have hShows := hRel hType hFirst
    rw [hValue] at hShows
    exact (forall_tokenAgrees_iff hShows hFound).mpr hAgrees

theorem firstAgrees_derived_iff (hMany : lv.types.length ≠ 1) (hOperator : lv.types[0]? = some .operator)
    (hValue : HasValue row offsets s lv x) : FirstAgrees row offsets s lv literals x ↔ literals = [] := by
  obtain ⟨v, hRun, -⟩ := hValue KValue.zero
  obtain ⟨text, hFirst⟩ := value_of_derived hMany hOperator hRun
  rw [firstAgrees_iff_token]
  constructor
  · rintro ⟨type, text, token, hType, -, hToken, hAgrees⟩
    obtain rfl := Option.some_inj.mp (hOperator.symm.trans hType)
    cases hToken
    exact List.map_eq_nil_iff.mp hAgrees
  · rintro rfl
    exact ⟨.operator, text, .unset, hOperator, hFirst, rfl, rfl⟩

end Token

/-- When IN is EQ with some literal, whatever the indeterminate members hold. -/
theorem inAgrees_iff_inKept (row : Mem) (offsets : List Int) (s : SchemaInfo) (lv : Operand) (literals : List Literal)
    (x : Value) (hValue : HasValue row offsets s lv x) (hTypes : ∀ literal ∈ literals, literal.value.type = x.type) :
    (∀ u, InAgrees row offsets s lv literals u) ↔ InKept row offsets s lv literals x := by
  simp only [inAgrees_iff_eq_among hValue hTypes, compareIn_eq_some_iff]
  change FirstAgrees row offsets s lv literals x ↔ _
  rw [InKept]
  split
  · rename_i hOne
    exact firstAgrees_single_iff hOne hValue hTypes
  · rename_i hMany
    split
    · rename_i hOperator
      exact firstAgrees_derived_iff hMany hOperator hValue
    · exact firstAgrees_iff_token

end In

/-- A telephone number whose first two digits are the country code. -/
def phoneSchema : SchemaInfo :=
  { columnName := [bytesOf "phone"], columnOffset := [0, 6], columnLength := [6], columnType := [.string],
    columnIndexMap := [(bytesOf "phone", 0)], pkColumn := [], tableIndexNumber := 0, hasVarChar := false }

def phoneRow : Bytes := bytesOf "13-702"

def textLiteral (text : Bytes) : Literal := ⟨.string, text, .string text, rfl⟩

theorem phone_in_list :
    InAgrees (ofBytes phoneRow) [0, 6] phoneSchema ⟨[.column], [bytesOf "phone"]⟩
      [textLiteral (bytesOf "13-702"), textLiteral (bytesOf "31-402")] KValue.zero :=
  (inAgrees_iff_inKept (ofBytes phoneRow) [0, 6] phoneSchema ⟨[.column], [bytesOf "phone"]⟩
    [textLiteral (bytesOf "13-702"), textLiteral (bytesOf "31-402")] (.string (bytesOf "13-702"))
    (fun _ => ⟨_, rfl, rfl⟩) (by simp [textLiteral, Value.type])).mpr (Or.inr (Or.inl rfl)) KValue.zero

/-- `SUBSTRING(phone, 1, 2) IN ('13')` with the unset members at zero. -/
theorem country_code_not_found :
    ¬ InAgrees (ofBytes phoneRow) [0, 6] phoneSchema
      ⟨[.operator, .column, .int32, .int32], [bytesOf "SUBSTRING", bytesOf "phone", bytesOf "1", bytesOf "2"]⟩
      [textLiteral (bytesOf "13")] KValue.zero := by
  rintro ⟨passed, hIn, hPassed⟩
  have hEq : passed = true := hPassed.mpr ⟨_, List.mem_singleton_self _, by decide⟩
  subst hEq
  revert hIn
  decide

end CsdWorker.Filter
