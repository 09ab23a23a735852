import CsdWorker.Lib.Endian
import CsdWorker.DataStructure

/-! # Receiving a snippet

The receive loop of `input_worker` in `input.cc`. A connection is the list of what `read` finds on it; when
the list is at its end the peer has closed the connection and `read` returns 0.
-/

namespace CsdWorker.Input

open Memory Endian

set_option autoImplicit false

inductive Arrival where
  | data (bytes : Bytes)
  | error
  deriving DecidableEq, Repr

/-- `read(client_fd, …, limit)`: the bytes it stores, `none` if it returns -1, and what is left to be read. -/
def readSome (limit : Nat) : List Arrival → Option Bytes × List Arrival
  | [] => (some [], [])
  | .error :: rest => (none, rest)
  | .data bytes :: rest =>
    (some (bytes.take limit), if limit < bytes.length then .data (bytes.drop limit) :: rest else rest)

structure ReceiveState where
  connection : List Arrival
  length : Nat
  buffer : Mem
  json : Bytes

inductive Turn where
  | again (s : ReceiveState)
  | ended (s : ReceiveState)
  | exited

/-- The text of the buffer as a C string. -/
def cString (buffer : Mem) : Bytes := (read buffer 0 bufferSize).takeWhile (· ≠ 0)

/-- One turn of the loop. `length` is a `size_t` and is counted down modulo `2 ^ 64`. -/
def receiveStep (s : ReceiveState) : Turn :=
  match readSome (bufferSize - 1) s.connection with
  | (none, _) => .exited
  | (some bytes, connection) =>
    let length := unsign 8 ((s.length : Int) - bytes.length)
    let buffer := write (write s.buffer 0 bytes) bytes.length [0]
    let next := { connection, length, buffer, json := s.json ++ cString buffer }
    if length = 0 then .ended next else .again next

/-- `passed` is the call of `parse_snippet` with the text, the connection as it is then. -/
inductive Received where
  | passed (json : Bytes) (connection : List Arrival)
  | exited
  deriving DecidableEq, Repr

/-- `none` is a loop that has not ended after so many turns. -/
def receiveLoop : Nat → ReceiveState → Option Received
  | 0, _ => none
  | turns + 1, s =>
    match receiveStep s with
    | .again s => receiveLoop turns s
    | .ended s => some (.passed s.json s.connection)
    | .exited => some .exited

/-- A connection from `accept` on. What the first `read` does not store of `length` is indeterminate. -/
def receive (turns : Nat) (indeterminate : Mem) (connection : List Arrival) : Option Received :=
  let (header, connection) := readSome 8 connection
  let length := leNat (read (write indeterminate 0 (header.getD [])) 0 8)
  receiveLoop turns { connection, length, buffer := zeroed, json := [] }

theorem readSome_data {limit : Nat} {bytes : Bytes} (h : bytes.length ≤ limit) (rest : List Arrival) :
    readSome limit (.data bytes :: rest) = (some bytes, rest) := by
  rw [readSome, List.take_of_length_le h, if_neg (not_lt.mpr h)]

/-- A piece without NUL bytes is read back from the buffer whole, whatever the buffer held. -/
theorem cString_write {bytes : Bytes} (hNul : 0 ∉ bytes) (hLength : bytes.length < bufferSize) (buffer : Mem) :
    cString (write (write buffer 0 bytes) bytes.length [0]) = bytes := by
  obtain ⟨behind, hBehind⟩ := Nat.exists_eq_add_of_lt hLength
  have hSize : bufferSize = (bytes ++ [0]).length + behind := by
    rw [List.length_append, List.length_singleton]
    omega
  have hWrite := write_append buffer 0 bytes [0]
  rw [Nat.zero_add] at hWrite
  have hText : ∀ b ∈ bytes, decide (b ≠ 0) = true := by
    intro b hb
    exact decide_eq_true fun hZero => hNul (hZero ▸ hb)
  rw [cString, hWrite, hSize, read_add, read_write_self, List.append_assoc, List.takeWhile_append_of_pos hText,
    List.singleton_append, List.takeWhile_cons_of_neg (by simp), List.append_nil]

/-- The transport's pieces of a text. -/
structure Pieces (text : Bytes) (pieces : List Bytes) : Prop where
  flatten : pieces.flatten = text
  sizes : ∀ piece ∈ pieces, 1 ≤ piece.length ∧ piece.length ≤ bufferSize - 1

theorem Pieces.eq_nil_iff {text : Bytes} {pieces : List Bytes} (h : Pieces text pieces) : text = [] ↔ pieces = [] := by
  constructor
  · intro hText
    cases pieces with
    | nil => rfl
    | cons piece pieces =>
      have hSize := (h.sizes piece List.mem_cons_self).1
      have hNil := h.flatten.trans hText
      rw [List.flatten_cons, List.append_eq_nil_iff] at hNil
      simp [hNil.1] at hSize
  · rintro rfl
    exact h.flatten.symm

section Turn
variable {piece : Bytes} {length : Nat} {arrivals connection : List Arrival} {buffer : Mem} {json : Bytes}

/-- One read of a piece: the countdown goes on while there is text to come. -/
theorem receiveStep_piece (hRead : readSome (bufferSize - 1) arrivals = (some piece, connection)) (hNul : 0 ∉ piece)
    (hSize : piece.length ≤ bufferSize - 1) (hLe : piece.length ≤ length) (hLt : length < 2 ^ 64) :
    receiveStep ⟨arrivals, length, buffer, json⟩ =
      let next : ReceiveState := ⟨connection, length - piece.length,
        write (write buffer 0 piece) piece.length [0], json ++ piece⟩
      if length - piece.length = 0 then .ended next else .again next := by
  have hBuffer : 0 < bufferSize := by decide
  have hCount : unsign 8 ((length : Int) - piece.length) = length - piece.length := unsign_sub hLe hLt
  rw [receiveStep]
  simp only [hRead, hCount, cString_write hNul (by omega : piece.length < bufferSize)]

end Turn

theorem receiveLoop_pieces {text : Bytes} {pieces : List Bytes} (h : Pieces text pieces) (hText : text ≠ [])
    (hNul : 0 ∉ text) (hLt : text.length < 2 ^ 64) {turns : Nat} (hTurns : pieces.length ≤ turns) (buffer : Mem)
    (json : Bytes) (rest : List Arrival) :
    receiveLoop turns ⟨pieces.map .data ++ rest, text.length, buffer, json⟩ = some (.passed (json ++ text) rest) := by
  -- what is still to come is counted by `length`, what has come stands in `json`
  induction pieces generalizing text turns buffer json with
  | nil => exact absurd h.flatten.symm hText
  | cons piece pieces ih =>
    obtain ⟨turns, rfl⟩ := Nat.exists_eq_add_of_le' (Nat.lt_of_lt_of_le (Nat.succ_pos _) hTurns)
    obtain ⟨⟨-, hSize⟩, hSizes⟩ := List.forall_mem_cons.mp h.sizes
    obtain rfl := h.flatten
    rw [List.flatten_cons] at hNul hLt hText
    have hLength : (piece :: pieces).flatten.length = piece.length + pieces.flatten.length := by simp
    rw [receiveLoop, List.map_cons, List.cons_append, receiveStep_piece (readSome_data hSize _)
      (fun hIn => hNul (List.mem_append_left _ hIn)) hSize (by omega) (by rw [List.flatten_cons]; exact hLt), hLength,
      Nat.add_sub_cancel_left, List.flatten_cons]
    have hRest : Pieces pieces.flatten pieces := ⟨rfl, hSizes⟩
    by_cases hEnd : pieces.flatten = []
    · obtain rfl := hRest.eq_nil_iff.mp hEnd
      simp
    · simp only [List.length_eq_zero_iff, hEnd, if_false]
      rw [ih hRest hEnd (fun hIn => hNul (List.mem_append_right _ hIn))
        (by rw [List.length_append] at hLt; omega) (by simpa using hTurns), List.append_assoc]

/-- Nothing is awaited of a closed connection. -/
theorem receiveLoop_closed {turns : Nat} (hTurns : 1 ≤ turns) (buffer : Mem) (json : Bytes) :
    receiveLoop turns ⟨[], 0, buffer, json⟩ = some (.passed json []) := by
  obtain ⟨turns, rfl⟩ := Nat.exists_eq_add_of_le' hTurns
  rw [receiveLoop, receiveStep_piece rfl (List.not_mem_nil) (Nat.zero_le _) (Nat.le_refl 0) (by decide),
    List.append_nil]
  rfl

theorem receive_header (turns : Nat) (indeterminate : Mem) {length : Nat} (hLt : length < 2 ^ 64)
    (rest : List Arrival) :
    receive turns indeterminate (.data (natLe 8 length) :: rest) = receiveLoop turns ⟨rest, length, zeroed, []⟩ := by
  have hHeader := read_write_self indeterminate 0 (natLe 8 length)
  rw [length_natLe] at hHeader
  rw [receive, readSome_data (by rw [length_natLe])]
  simp only [Option.getD_some, hHeader, leNat_natLe, Nat.mod_eq_of_lt (show length < 256 ^ 8 by omega)]

/-- However the text arrives, the loop ends with its last byte and passes it on. An empty text has no last byte: the
loop reads once and finds the connection closed. -/
theorem receive_passes_text (text : Bytes) (hNul : 0 ∉ text) (hLt : text.length < 2 ^ 64) (pieces : List Bytes)
    (h : Pieces text pieces) (indeterminate : Mem) (turns : Nat) (hTurns : max 1 pieces.length ≤ turns) :
    receive turns indeterminate (.data (natLe 8 text.length) :: pieces.map .data) = some (.passed text []) ∧
      (text ≠ [] → ∀ rest, receive turns indeterminate (.data (natLe 8 text.length) :: (pieces.map .data ++ rest)) =
        some (.passed text rest)) := by
  have hRest : text ≠ [] → ∀ rest, receive turns indeterminate
      (.data (natLe 8 text.length) :: (pieces.map .data ++ rest)) = some (.passed text rest) := by
    intro hText rest
    rw [receive_header turns indeterminate hLt, receiveLoop_pieces h hText hNul hLt (by omega), List.nil_append]
  refine ⟨?_, hRest⟩
  by_cases hText : text = []
  · obtain rfl := h.eq_nil_iff.mp hText
    rw [receive_header turns indeterminate hLt, hText]
    exact receiveLoop_closed (le_of_max_le_left hTurns) zeroed []
  · have hAll := hRest hText []
    rwa [List.append_nil] at hAll

/-- An empty object in two reads, with a byte behind it. -/
theorem braces_received :
    receive 2 zeroed [.data [2, 0, 0, 0, 0, 0, 0, 0], .data [123], .data [125], .data [10]] =
      some (.passed [123, 125] [.data [10]]) :=
  (receive_passes_text [123, 125] (by decide) (by decide) [[123], [125]] ⟨rfl, by decide⟩ zeroed 2 (by decide)).2
    (by decide) [.data [10]]

theorem readSome_pieces {pieces : List Bytes} (hSizes : ∀ piece ∈ pieces, piece.length ≤ bufferSize - 1) :
    readSome (bufferSize - 1) (pieces.map .data) = (some (pieces.headD []), pieces.tail.map .data) := by
  cases pieces with
  | nil => rfl
  | cons piece pieces => exact readSome_data (hSizes piece List.mem_cons_self) _

/-- The loop ends with the first read, of the text or at its end, up to which the bytes are the declared ones modulo
`2 ^ 64`. -/
theorem receiveLoop_isSome_iff {pieces : List Bytes} (hSizes : ∀ piece ∈ pieces, piece.length ≤ bufferSize - 1)
    (turns length : Nat) (buffer : Mem) (json : Bytes) :
    (receiveLoop turns ⟨pieces.map .data, length, buffer, json⟩).isSome ↔
      ∃ k, 1 ≤ k ∧ k ≤ turns ∧ unsign 8 ((length : Int) - (pieces.take k).flatten.length) = 0 := by
  induction turns generalizing pieces length buffer json with
  | zero =>
    constructor
    · intro h
      cases h
    · rintro ⟨k, hPos, hLe, -⟩
      omega
  | succ turns ih =>
    have hTake : ∀ k, (pieces.take (k + 1)).flatten.length =
        (pieces.headD []).length + (pieces.tail.take k).flatten.length := by
      intro k
      cases pieces <;> simp
    have hTail : ∀ piece ∈ pieces.tail, piece.length ≤ bufferSize - 1 :=
      fun piece hIn => hSizes piece (List.mem_of_mem_tail hIn)
    rw [receiveLoop, receiveStep]
    simp only [readSome_pieces hSizes]
    by_cases hEnd : unsign 8 ((length : Int) - (pieces.headD []).length) = 0
    · rw [if_pos hEnd]
      refine iff_of_true rfl ⟨1, le_rfl, by omega, ?_⟩
      rw [hTake 0, List.take_zero, List.flatten_nil, List.length_nil, Nat.add_zero, hEnd]
    · rw [if_neg hEnd]
      refine (ih hTail _ _ _).trans ?_
      have hStep : ∀ k, unsign 8 ((unsign 8 ((length : Int) - (pieces.headD []).length) : Int) -
          (pieces.tail.take k).flatten.length) = unsign 8 ((length : Int) - (pieces.take (k + 1)).flatten.length) := by
        intro k
        rw [unsign_unsign_sub, hTake, Nat.cast_add, Int.sub_sub]
      constructor
      · rintro ⟨k, hPos, hLe, hZero⟩
        exact ⟨k + 1, by omega, by omega, (hStep k).symm.trans hZero⟩
      · rintro ⟨k, hPos, hLe, hZero⟩
        obtain ⟨k, rfl⟩ := Nat.exists_eq_add_of_le' hPos
        refine ⟨k, ?_, by omega, (hStep k).trans hZero⟩
        -- the first read alone does not end the loop
        refine Nat.pos_of_ne_zero ?_
        rintro rfl
        rw [hTake, List.take_zero, List.flatten_nil, List.length_nil, Nat.add_zero] at hZero
        exact hEnd hZero

/-- The loop ends on a connection that its peer closes if and only if some of the first reads, one at least, are
together as long as the length that was declared. Nothing that `read` returns at the end of the text counts down any
more. -/
theorem receive_ends_iff (length : Nat) (hLt : length < 2 ^ 64) (text : Bytes) (pieces : List Bytes)
    (h : Pieces text pieces) (indeterminate : Mem) :
    (∃ turns, (receive turns indeterminate (.data (natLe 8 length) :: pieces.map .data)).isSome) ↔
      ∃ k, 1 ≤ k ∧ (pieces.take k).flatten.length % 2 ^ 64 = length := by
  have hEnds : ∀ turns, (receive turns indeterminate (.data (natLe 8 length) :: pieces.map .data)).isSome ↔
      ∃ k, 1 ≤ k ∧ k ≤ turns ∧ (pieces.take k).flatten.length % 2 ^ 64 = length := by
    intro turns
    have hSizes : ∀ piece ∈ pieces, piece.length ≤ bufferSize - 1 := fun piece hIn => (h.sizes piece hIn).2
    rw [receive_header turns indeterminate hLt, receiveLoop_isSome_iff hSizes]
    simp only [unsign_sub_eq_zero_iff (show length < 256 ^ 8 by omega), show 256 ^ 8 = 2 ^ 64 by rfl]
  constructor
  · rintro ⟨turns, hSome⟩
    obtain ⟨k, hPos, -, hLength⟩ := (hEnds turns).mp hSome
    exact ⟨k, hPos, hLength⟩
  · rintro ⟨k, hPos, hLength⟩
    exact ⟨k, (hEnds k).mpr ⟨k, hPos, le_rfl, hLength⟩⟩

/-- Two bytes in two reads where one byte was declared: the first read ends the loop. -/
theorem first_piece_ends :
    ∃ turns, (receive turns zeroed (.data (natLe 8 1) :: [[123], [125]].map .data)).isSome :=
  (receive_ends_iff 1 (by decide) [123, 125] [[123], [125]] ⟨rfl, by decide⟩ zeroed).mpr ⟨1, le_rfl, rfl⟩

/-- A text of one byte where two were declared, and one of two bytes in a single read where one was declared. -/
theorem wrong_length_never_ends :
    (∀ turns, receive turns zeroed (.data (natLe 8 2) :: [[123]].map .data) = none) ∧
      ∀ turns, receive turns zeroed (.data (natLe 8 1) :: [[123, 125]].map .data) = none := by
  have hNone : ∀ (length : Nat) (piece : Bytes), length < 2 ^ 64 → piece.length ≤ bufferSize - 1 →
      piece.length % 256 ^ 8 ≠ length → ∀ turns,
      receive turns zeroed (.data (natLe 8 length) :: [piece].map .data) = none := by
    intro length piece hLt hSize hNe turns
    rw [receive_header turns zeroed hLt, ← Option.not_isSome_iff_eq_none,
      receiveLoop_isSome_iff (List.forall_mem_singleton.mpr hSize)]
    rintro ⟨k, hPos, -, hZero⟩
    rw [List.take_of_length_le (by simpa using hPos), List.flatten_singleton,
      unsign_sub_eq_zero_iff (show length < 256 ^ 8 by omega)] at hZero
    exact hNe hZero
  exact ⟨hNone 2 [123] (by decide) (by decide) (by decide), hNone 1 [123, 125] (by decide) (by decide) (by decide)⟩

end CsdWorker.Input
