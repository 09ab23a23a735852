import Mathlib
import CsdWorker.Lib.Endian

/-! # Programs over a JSON library

The reader and the writer are parameters. A program sees a document through the calls that it makes on its values, and
nothing is known of what they return but its type. That a reader shows a given document is a hypothesis on the reader.
-/

namespace CsdWorker.Json

open Memory Endian

set_option autoImplicit false

section Types

/-- An `int`. -/
structure CInt where
  val : Int
  fits : Fits 4 val

/-- An `int64_t`. -/
structure CLong where
  val : Int
  fits : Fits 8 val

/-- A C string. -/
structure CText where
  val : Bytes
  noZero : 0 ∉ val

def CInt.wrap (n : Int) : CInt := ⟨Endian.wrap 4 n, fits_wrap 4 n⟩

/-- The bytes up to the first zero. -/
def CText.cut (s : Bytes) : CText := ⟨s.takeWhile (· ≠ 0), fun h => by simpa using List.mem_takeWhile_imp h⟩

theorem CInt.wrap_val (n : CInt) : CInt.wrap n.val = n := by
  obtain ⟨n, hFits⟩ := n
  simp only [CInt.wrap, wrap_of_fits hFits]

theorem takeWhile_of_noZero {s : Bytes} (h : 0 ∉ s) : s.takeWhile (· ≠ 0) = s := by
  refine List.takeWhile_eq_self_iff.mpr fun b hb => decide_eq_true ?_
  rintro rfl
  exact h hb

end Types

inductive Tree where
  | bool (b : Bool)
  | int (n : CInt)
  | long (n : CLong)
  | str (s : CText)
  | arr (elements : List Tree)
  | obj (members : List (Bytes × Tree))

def ascii (s : String) : Bytes := s.toList.map fun c => UInt8.ofNat c.toNat

/-- The calls on a document and its values. One that is `none` does not return. -/
structure Reader (Value : Type) where
  parse : Bytes → Option Value
  hasMember : Value → Bytes → Option Bool
  member : Value → Bytes → Option Value
  size : Value → Option Nat
  element : Value → Nat → Option Value
  getBool : Value → Option Bool
  getInt : Value → Option CInt
  getInt64 : Value → Option CLong
  getString : Value → Option CText

section Calls
variable {Value α : Type} (reader : Reader Value)

def memberOf (key : String) (x : Value) : Option Value := reader.member x (ascii key)

def boolOf (key : String) (x : Value) : Option Bool := (memberOf reader key x).bind reader.getBool

def intOf (key : String) (x : Value) : Option CInt := (memberOf reader key x).bind reader.getInt

def longOf (key : String) (x : Value) : Option CLong := (memberOf reader key x).bind reader.getInt64

def stringOf (key : String) (x : Value) : Option CText := (memberOf reader key x).bind reader.getString

/-- A loop over the indices of an array, with what it pushes back. -/
def forIndices (x : Value) (f : Nat → Option α) : Option (List α) := do
  let n ← reader.size x
  (List.range n).mapM f

/-- A loop that looks at the element of its index only. -/
def forElements (x : Value) (f : Value → Option α) : Option (List α) :=
  forIndices reader x fun i => (reader.element x i).bind f

end Calls

section Loops
variable {Value α β : Type}

theorem exists_of_mapM {f : α → Option β} {xs : List α} {ys : List β} (h : xs.mapM f = some ys) :
    ∀ y ∈ ys, ∃ x ∈ xs, f x = some y := by
  induction xs generalizing ys with
  | nil =>
    obtain rfl := Option.some_inj.mp h
    simp
  | cons x xs ih =>
    rw [List.mapM_cons] at h
    obtain ⟨first, hFirst, hBody⟩ := Option.bind_eq_some_iff.mp h
    obtain ⟨rest, hRest, hEnd⟩ := Option.bind_eq_some_iff.mp hBody
    obtain rfl := Option.some_inj.mp hEnd
    refine List.forall_mem_cons.mpr ⟨⟨x, List.mem_cons_self, hFirst⟩, fun y hy => ?_⟩
    obtain ⟨z, hz, hy⟩ := ih hRest y hy
    exact ⟨z, List.mem_cons_of_mem _ hz, hy⟩

theorem exists_of_forElements {reader : Reader Value} {x : Value} {f : Value → Option α} {ys : List α}
    (h : forElements reader x f = some ys) : ∀ y ∈ ys, ∃ v, f v = some y := by
  intro y hy
  obtain ⟨n, -, hBody⟩ := Option.bind_eq_some_iff.mp h
  obtain ⟨i, -, hEach⟩ := exists_of_mapM hBody y hy
  obtain ⟨v, -, hv⟩ := Option.bind_eq_some_iff.mp hEach
  exact ⟨v, hv⟩

theorem mapM_range (xs : List α) (g : α → β) {f : Nat → Option β} (h : ∀ i x, xs[i]? = some x → f i = some (g x)) :
    (List.range xs.length).mapM f = some (xs.map g) := by
  induction xs using List.reverseRecOn with
  | nil => rfl
  | append_singleton xs x ih =>
    have hBefore := ih fun i y hi => h i y (by rw [List.getElem?_append_left (List.getElem?_eq_some_iff.mp hi).1, hi])
    have hLast : f xs.length = some (g x) := h xs.length x (by simp)
    rw [List.length_append, List.length_singleton, List.range_succ, List.mapM_append, hBefore]
    simp [hLast]

end Loops

section Shows
variable {Value α β : Type}

/-- The calls on the value return what stands in the tree. -/
inductive Shows (reader : Reader Value) : Value → Tree → Prop where
  | bool {v : Value} {b : Bool} (h : reader.getBool v = some b) : Shows reader v (.bool b)
  | int {v : Value} {n : CInt} (h : reader.getInt v = some n) : Shows reader v (.int n)
  | long {v : Value} {n : CLong} (h : reader.getInt64 v = some n) : Shows reader v (.long n)
  | str {v : Value} {s : CText} (h : reader.getString v = some s) : Shows reader v (.str s)
  | arr {v : Value} {elements : List Tree} (value : Nat → Value) (hSize : reader.size v = some elements.length)
      (hElement : ∀ i < elements.length, reader.element v i = some (value i))
      (h : ∀ i x, elements[i]? = some x → Shows reader (value i) x) : Shows reader v (.arr elements)
  | obj {v : Value} {members : List (Bytes × Tree)} (value : Bytes → Value)
      (hHas : ∀ key, reader.hasMember v key = some (members.lookup key).isSome)
      (hMember : ∀ key, (members.lookup key).isSome → reader.member v key = some (value key))
      (h : ∀ key x, members.lookup key = some x → Shows reader (value key) x) : Shows reader v (.obj members)

/-- The reader takes the text for the document. -/
def Reads (reader : Reader Value) (text : Bytes) (document : Tree) : Prop :=
  ∃ v, reader.parse text = some v ∧ Shows reader v document

variable {reader : Reader Value} {v : Value} {members : List (Bytes × Tree)}

theorem Shows.getInt {n : CInt} (h : Shows reader v (.int n)) : reader.getInt v = some n := by
  cases h with
  | int h => exact h

theorem Shows.getString {s : CText} (h : Shows reader v (.str s)) : reader.getString v = some s := by
  cases h with
  | str h => exact h

theorem Shows.hasMember (h : Shows reader v (.obj members)) (key : Bytes) :
    reader.hasMember v key = some (members.lookup key).isSome := by
  cases h with
  | obj value hHas hMember h => exact hHas key

theorem Shows.memberOf {x : Tree} (h : Shows reader v (.obj members)) (key : String)
    (hKey : members.lookup (ascii key) = some x) : ∃ w, memberOf reader key v = some w ∧ Shows reader w x := by
  cases h with
  | obj value hHas hMember h =>
    exact ⟨value (ascii key), hMember _ (Option.isSome_of_eq_some hKey), h _ x hKey⟩

theorem Shows.boolOf {b : Bool} (h : Shows reader v (.obj members)) (key : String)
    (hKey : members.lookup (ascii key) = some (.bool b)) : boolOf reader key v = some b := by
  obtain ⟨w, hMember, hw⟩ := h.memberOf key hKey
  cases hw with
  | bool hw => rw [Json.boolOf, hMember, Option.bind_some, hw]

theorem Shows.intOf {n : CInt} (h : Shows reader v (.obj members)) (key : String)
    (hKey : members.lookup (ascii key) = some (.int n)) : intOf reader key v = some n := by
  obtain ⟨w, hMember, hw⟩ := h.memberOf key hKey
  rw [Json.intOf, hMember, Option.bind_some, hw.getInt]

theorem Shows.longOf {n : CLong} (h : Shows reader v (.obj members)) (key : String)
    (hKey : members.lookup (ascii key) = some (.long n)) : longOf reader key v = some n := by
  obtain ⟨w, hMember, hw⟩ := h.memberOf key hKey
  cases hw with
  | long hw => rw [Json.longOf, hMember, Option.bind_some, hw]

theorem Shows.stringOf {s : CText} (h : Shows reader v (.obj members)) (key : String)
    (hKey : members.lookup (ascii key) = some (.str s)) : stringOf reader key v = some s := by
  obtain ⟨w, hMember, hw⟩ := h.memberOf key hKey
  rw [Json.stringOf, hMember, Option.bind_some, hw.getString]

variable {write : α → Tree} {xs : List α}

theorem Shows.size (h : Shows reader v (.arr (xs.map write))) : reader.size v = some xs.length := by
  cases h with
  | arr value hSize hElement h => rw [hSize, List.length_map]

theorem Shows.element (h : Shows reader v (.arr (xs.map write))) {i : Nat} {x : α} (hx : xs[i]? = some x) :
    ∃ w, reader.element v i = some w ∧ Shows reader w (write x) := by
  cases h with
  | arr value hSize hElement h =>
    obtain ⟨hi, -⟩ := List.getElem?_eq_some_iff.mp hx
    refine ⟨value i, hElement i (by rwa [List.length_map]), h i _ ?_⟩
    rw [List.getElem?_map, hx, Option.map_some]

theorem Shows.forIndices (h : Shows reader v (.arr (xs.map write))) {f : Nat → Option β} (g : α → β)
    (hEach : ∀ i x, xs[i]? = some x → f i = some (g x)) : forIndices reader v f = some (xs.map g) := by
  rw [Json.forIndices, h.size]
  exact mapM_range xs g hEach

theorem Shows.forElements (h : Shows reader v (.arr (xs.map write))) {f : Value → Option β} (g : α → β)
    (hEach : ∀ x w, Shows reader w (write x) → f w = some (g x)) : forElements reader v f = some (xs.map g) := by
  refine h.forIndices g fun i x hx => ?_
  obtain ⟨w, hElement, hw⟩ := h.element hx
  rw [hElement, Option.bind_some, hEach x w hw]

end Shows

section Trees

/-- A reader whose values are the trees, with the texts that it takes for them. -/
def treeReader (parse : Bytes → Option Tree) : Reader Tree where
  parse := parse
  hasMember
    | .obj members, key => some (members.lookup key).isSome
    | _, _ => none
  member
    | .obj members, key => members.lookup key
    | _, _ => none
  size
    | .arr elements => some elements.length
    | _ => none
  element
    | .arr elements, i => elements[i]?
    | _, _ => none
  getBool
    | .bool b => some b
    | _ => none
  getInt
    | .int n => some n
    | _ => none
  getInt64
    | .long n => some n
    | _ => none
  getString
    | .str s => some s
    | _ => none

theorem sizeOf_lookup {members : List (Bytes × Tree)} {key : Bytes} {x : Tree} (h : members.lookup key = some x) :
    sizeOf x < sizeOf members := by
  obtain ⟨front, behind, rfl, -⟩ := List.lookup_eq_some_iff.mp h
  have hMem : (key, x) ∈ front ++ (key, x) :: behind := List.mem_append_right _ List.mem_cons_self
  have hLt := List.sizeOf_lt_of_mem hMem
  rw [Prod.mk.sizeOf_spec] at hLt
  omega

theorem shows_treeReader (parse : Bytes → Option Tree) : (x : Tree) → Shows (treeReader parse) x x
  | .bool _ => .bool rfl
  | .int _ => .int rfl
  | .long _ => .long rfl
  | .str _ => .str rfl
  | .arr elements => by
    refine .arr (fun i => elements[i]?.getD (.bool false)) rfl (fun i hi => ?_) fun i x hx => ?_
    · change elements[i]? = _
      rw [List.getElem?_eq_getElem hi, Option.getD_some]
    · have hLt : sizeOf x < sizeOf elements := List.sizeOf_lt_of_mem (List.mem_of_getElem? hx)
      rw [hx, Option.getD_some]
      exact shows_treeReader parse x
  | .obj members => by
    refine .obj (fun key => (members.lookup key).getD (.bool false)) (fun key => rfl) (fun key hKey => ?_)
      fun key x hx => ?_
    · obtain ⟨x, hx⟩ := Option.isSome_iff_exists.mp hKey
      change members.lookup key = _
      rw [hx, Option.getD_some]
    · have hLt := sizeOf_lookup hx
      rw [hx, Option.getD_some]
      exact shows_treeReader parse x
termination_by x => sizeOf x

theorem reads_treeReader {parse : Bytes → Option Tree} {text : Bytes} {document : Tree}
    (h : parse text = some document) :
    Reads (treeReader parse) text document := ⟨document, h, shows_treeReader parse document⟩

end Trees

end CsdWorker.Json
