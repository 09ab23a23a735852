import CsdWorker.Lib.Endian

/-! # The row statistics

The counts of scanned and filtered rows, from the worker's monitoring manager to the visualizer. A round reads a count,
requests a URL that holds it and sets the count to zero, all under `row_mutex`; it does not look at what became of the
request. Rows of a round whose request does not reach the visualizer are in neither count.
-/

namespace CsdWorker.RowStatistics

open Endian

set_option autoImplicit false

inductive Statistic where
  | scanned
  | filtered
  deriving DecidableEq, Repr

/-- `rowCount` are the counters of the worker, `delivered` are `scan_count` and `filter_count` of the visualizer. -/
structure Statistics where
  rowCount : Statistic → Nat
  delivered : Statistic → Nat

def initial : Statistics := ⟨fun _ => 0, fun _ => 0⟩

section Worker

def Statistic.path : Statistic → List Char
  | .scanned => "/scan".toList
  | .filtered => "/filter".toList

def url (which : Statistic) (count : Nat) : List Char := which.path ++ "?value=".toList ++ Nat.toDigits 10 count

def addRow (which : Statistic) (s : Statistics) (rows : Int) : Statistics :=
  { s with rowCount := Function.update s.rowCount which (unsign 8 (s.rowCount which + rows)) }

def addScannedRow : Statistics → Int → Statistics := addRow .scanned

def addFilteredRow : Statistics → Int → Statistics := addRow .filtered

end Worker

section Visualizer

/-- `parse_qs(…).get('value')`: the first field of that name that is not blank. Escapes do not occur in a number. -/
def queryValue (url : List Char) : Option (List Char) :=
  let query := ((url.dropWhile (· ≠ '?')).drop 1).takeWhile (· ≠ '#')
  (query.splitOn '&').findSome? fun field =>
    let value := (field.dropWhile (· ≠ '=')).drop 1
    if field.takeWhile (· ≠ '=') = "value".toList ∧ value ≠ [] then some value else none

def addValue (which : Statistic) (delivered : Statistic → Nat) (url : List Char) : Statistic → Nat :=
  match queryValue url with
  | none => delivered
  | some value =>
    if value.all Char.isDigit then Function.update delivered which (delivered which + Nat.ofDigitChars 10 value 0)
    else delivered

def doGet (delivered : Statistic → Nat) (url : List Char) : Statistic → Nat :=
  if Statistic.scanned.path.isPrefixOf url then addValue .scanned delivered url
  else if Statistic.filtered.path.isPrefixOf url then addValue .filtered delivered url
  else delivered

end Visualizer

/-- One round. `reached` says whether the request gets to the visualizer. -/
def sendRowCount (which : Statistic) (s : Statistics) (reached : Bool) : Statistics where
  rowCount := Function.update s.rowCount which 0
  delivered := if reached then doGet s.delivered (url which (s.rowCount which)) else s.delivered

def sendScannedRowCount : Statistics → Bool → Statistics := sendRowCount .scanned

def sendFilteredRowCount : Statistics → Bool → Statistics := sendRowCount .filtered

inductive Action where
  | add (which : Statistic) (rows : Int)
  | round (which : Statistic) (reached : Bool)
  deriving DecidableEq, Repr

def perform (s : Statistics) : Action → Statistics
  | .add .scanned rows => addScannedRow s rows
  | .add .filtered rows => addFilteredRow s rows
  | .round .scanned reached => sendScannedRowCount s reached
  | .round .filtered reached => sendFilteredRowCount s reached

def after (actions : List Action) : Statistics := actions.foldl perform initial

def Action.rows (which : Statistic) : Action → Int
  | .add of rows => if of = which then rows else 0
  | .round _ _ => 0

def rowsAdded (which : Statistic) (actions : List Action) : Int := (actions.map (Action.rows which)).sum

def accounted (which : Statistic) (s : Statistics) : Int := s.delivered which + s.rowCount which

/-- The count stays within 64 bits, and a round whose request is lost has nothing to send. -/
def Safe (which : Statistic) (s : Statistics) : Action → Prop
  | .add of rows => of = which → 0 ≤ s.rowCount which + rows ∧ s.rowCount which + rows < 2 ^ 64
  | .round of reached => of = which → reached = false → s.rowCount which = 0

section Delivery

theorem toDigits_ne {n : Nat} {separator : Char} (h : separator.isDigit = false) :
    ∀ c ∈ Nat.toDigits 10 n, c ≠ separator := by
  rintro c hc rfl
  rw [Nat.isDigit_of_mem_toDigits (by decide) (by decide) hc] at h
  cases h

theorem queryValue_url (which : Statistic) (count : Nat) :
    queryValue (url which count) = some (Nat.toDigits 10 count) := by
  have hQuery : ((url which count).dropWhile (· ≠ '?')).drop 1 = "value=".toList ++ Nat.toDigits 10 count := by
    cases which <;> rfl
  have hWhole : ∀ separator : Char, separator.isDigit = false → separator ∉ "value=".toList →
      ∀ c ∈ "value=".toList ++ Nat.toDigits 10 count, c ≠ separator := by
    intro separator hDigit hName c hc
    obtain hc | hc := List.mem_append.mp hc
    · rintro rfl
      exact hName hc
    · exact toDigits_ne hDigit c hc
  have hFragment : ("value=".toList ++ Nat.toDigits 10 count).takeWhile (· ≠ '#') =
      "value=".toList ++ Nat.toDigits 10 count :=
    List.takeWhile_eq_self_iff.mpr fun c hc => decide_eq_true (hWhole '#' rfl (by decide) c hc)
  have hFields : ("value=".toList ++ Nat.toDigits 10 count).splitOn '&' = ["value=".toList ++ Nat.toDigits 10 count] :=
    List.splitOnP_eq_singleton fun c hc => beq_false_of_ne (hWhole '&' rfl (by decide) c hc)
  -- the one field is `value`, and a number has at least one digit
  have hField : (if ("value=".toList ++ Nat.toDigits 10 count).takeWhile (· ≠ '=') = "value".toList ∧
      Nat.toDigits 10 count ≠ [] then some (Nat.toDigits 10 count) else none) = some (Nat.toDigits 10 count) :=
    if_pos ⟨rfl, Nat.toDigits_ne_nil⟩
  rw [queryValue]
  simp only [hQuery, hFragment, hFields]
  exact List.findSome?_singleton.trans hField

/-- A request that gets through adds the number that was sent. -/
theorem doGet_url (delivered : Statistic → Nat) (which : Statistic) (count : Nat) :
    doGet delivered (url which count) = Function.update delivered which (delivered which + count) := by
  have hDigits : (Nat.toDigits 10 count).all Char.isDigit = true :=
    List.all_eq_true.mpr fun c hc => Nat.isDigit_of_mem_toDigits (by decide) (by decide) hc
  have hValue : addValue which delivered (url which count) =
      Function.update delivered which (delivered which + count) := by
    rw [addValue, queryValue_url]
    simp only [hDigits, if_true, Nat.ofDigitChars_toDigits (show 1 < 10 by decide) (Nat.le_refl 10)]
  cases which with
  | scanned => exact hValue
  | filtered => exact hValue

end Delivery

section Conservation
variable (which : Statistic) (s : Statistics)

theorem perform_add (of : Statistic) (rows : Int) : perform s (.add of rows) = addRow of s rows := by
  cases of <;> rfl

theorem perform_round (of : Statistic) (reached : Bool) :
    perform s (.round of reached) = sendRowCount of s reached := by
  cases of <;> rfl

theorem accounted_addRow (rows : Int) :
    accounted which (addRow which s rows) = accounted which s + rows ↔
      0 ≤ s.rowCount which + rows ∧ s.rowCount which + rows < 2 ^ 64 := by
  have hCount : (addRow which s rows).rowCount which = unsign 8 (s.rowCount which + rows) := Function.update_self _ _ _
  have hSelf : (unsign 8 (s.rowCount which + rows) : Int) = s.rowCount which + rows ↔
      0 ≤ s.rowCount which + rows ∧ s.rowCount which + rows < 2 ^ 64 := unsign_eq_self_iff
  rw [← hSelf, accounted, accounted, hCount]
  change (s.delivered which : Int) + _ = _ ↔ _
  omega

theorem accounted_sendRowCount (reached : Bool) :
    accounted which (sendRowCount which s reached) = accounted which s ↔ (reached = false → s.rowCount which = 0) := by
  have hCount : (sendRowCount which s reached).rowCount which = 0 := Function.update_self _ _ _
  rw [accounted, accounted, hCount, sendRowCount]
  cases reached with
  | true =>
    simp only [if_true, doGet_url, Function.update_self]
    refine iff_of_true ?_ fun hLost => Bool.noConfusion hLost
    omega
  | false =>
    -- the count is set to zero all the same
    simp only [Bool.false_eq_true, if_false, forall_const]
    omega

theorem accounted_of_ne {of : Statistic} (hOther : which ≠ of) :
    (∀ rows, accounted which (addRow of s rows) = accounted which s) ∧
      ∀ reached, accounted which (sendRowCount of s reached) = accounted which s := by
  constructor
  · intro rows
    have hCount : (addRow of s rows).rowCount which = s.rowCount which := Function.update_of_ne hOther _ _
    rw [accounted, hCount]
    rfl
  · intro reached
    have hCount : (sendRowCount of s reached).rowCount which = s.rowCount which := Function.update_of_ne hOther _ _
    have hDelivered : (sendRowCount of s reached).delivered which = s.delivered which := by
      cases reached with
      | true => exact (congrFun (doGet_url _ _ _) which).trans (Function.update_of_ne hOther _ _)
      | false => rfl
    rw [accounted, hCount, hDelivered, accounted]

theorem accounted_perform (a : Action) :
    accounted which (perform s a) = accounted which s + a.rows which ↔ Safe which s a := by
  cases a with
  | add of rows =>
    rw [perform_add, Action.rows, Safe]
    by_cases hSame : of = which
    · obtain rfl := hSame
      rw [if_pos rfl]
      exact (accounted_addRow of s rows).trans (imp_iff_right rfl).symm
    · rw [if_neg hSame, Int.add_zero]
      exact iff_of_true ((accounted_of_ne which s (Ne.symm hSame)).1 rows) fun h => absurd h hSame
  | round of reached =>
    rw [perform_round, Action.rows, Safe, Int.add_zero]
    by_cases hSame : of = which
    · obtain rfl := hSame
      exact (accounted_sendRowCount of s reached).trans (imp_iff_right rfl).symm
    · exact iff_of_true ((accounted_of_ne which s (Ne.symm hSame)).2 reached) fun h => absurd h hSame

variable {which} {actions : List Action}

theorem after_take_succ {n : Nat} {a : Action} (ha : actions[n]? = some a) :
    after (actions.take (n + 1)) = perform (after (actions.take n)) a := by
  rw [List.take_add_one, ha, after, List.foldl_append]
  rfl

theorem rowsAdded_take_succ {n : Nat} {a : Action} (ha : actions[n]? = some a) :
    rowsAdded which (actions.take (n + 1)) = rowsAdded which (actions.take n) + a.rows which := by
  rw [List.take_add_one, ha, rowsAdded, List.map_append, List.sum_append]
  simp [rowsAdded]

end Conservation

/-- At every point of a run the rows delivered and the rows still counted are the rows added, if and only if no round
whose request is lost finds rows to send, and no count leaves its 64 bits. -/
theorem rows_conserved_iff (which : Statistic) (actions : List Action) :
    (∀ n, accounted which (after (actions.take n)) = rowsAdded which (actions.take n)) ↔
      ∀ n a, actions[n]? = some a → Safe which (after (actions.take n)) a := by
  constructor
  · intro hConserved n a ha
    have hNext := hConserved (n + 1)
    rw [after_take_succ ha, rowsAdded_take_succ ha, ← hConserved n] at hNext
    exact (accounted_perform which _ a).mp hNext
  · intro hSafe n
    induction n with
    | zero => rfl
    | succ n ih =>
      cases ha : actions[n]? with
      | none =>
        have hEnd : actions.take (n + 1) = actions.take n := by
          rw [List.take_add_one, ha, Option.toList_none, List.append_nil]
        rw [hEnd, ih]
      | some a =>
        rw [after_take_succ ha, rowsAdded_take_succ ha, ← ih]
        exact (accounted_perform which _ a).mpr (hSafe n a ha)

theorem lost_request_loses_rows :
    accounted .scanned (after [.add .scanned 5, .round .scanned false]) = 0 ∧
      rowsAdded .scanned [.add .scanned 5, .round .scanned false] = 5 := by
  decide

end CsdWorker.RowStatistics
