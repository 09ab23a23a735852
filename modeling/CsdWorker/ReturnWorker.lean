import CsdWorker.Lib.Json
import CsdWorker.ProjectionMessages

/-! # Sending results

`send_data` in `return.cc` and the answer half of `tmax_return` in `worker.cc`. A header in JSON goes first, its length
in front of it, and when the peer has answered, the data follow in the same way. Of all the calls on the socket only the
result of `recv` is looked at.
-/

namespace CsdWorker.Return

open Memory Endian Json
open Projection (MessageOk)

set_option autoImplicit false

/-- What `recv` returns: 0 when the peer has closed the connection, -1, or bytes. -/
inductive Reply where
  | closed
  | failed
  | received (bytes : Bytes)
  deriving DecidableEq, Repr

/-- What the calls on the socket of a result return: whether there is a connection, how many bytes each `send` takes,
none if it fails, and the reply. -/
structure Calls where
  connected : Bool
  lengthSent : Option Nat
  headerSent : Option Nat
  reply : Reply
  sizeSent : Option Nat
  dataSent : Option Nat
  deriving DecidableEq, Repr

/-- A connection of its own is made for each result. It is complete if the peer has answered the header and has all that
was to be sent. -/
structure Connection where
  sent : Bytes
  complete : Bool
  deriving DecidableEq, Repr

section Sending

def Calls.put (calls : Calls) (taken : Option Nat) (bytes : Bytes) : Bytes :=
  if calls.connected then bytes.take (taken.getD 0) else []

def wire (text : Bytes) (length : Nat) (data : Bytes) : Bytes :=
  natLe 8 text.length ++ text ++ (natLe 8 length ++ data)

/-- What both workers send. They give up if the peer has closed the connection, and go on after an error. -/
def exchange (text : Bytes) (length : Nat) (data : Bytes) (calls : Calls) : Connection :=
  let header := calls.put calls.lengthSent (natLe 8 text.length) ++ calls.put calls.headerSent text
  let all := header ++ (calls.put calls.sizeSent (natLe 8 length) ++ calls.put calls.dataSent data)
  match calls.reply with
  | .closed => ⟨header, false⟩
  | .failed => ⟨all, false⟩
  | .received _ => ⟨all, decide (all = wire text length data)⟩

/-- The text of the writer as a C string. -/
def headerText (write : Tree → Bytes) (header : Tree) : Bytes := (write header).takeWhile (· ≠ 0)

/-- `writer.Int`. -/
def intField (n : Int) : Tree := .int (CInt.wrap n)

/-- `writer.String` of a C string. -/
def stringField (s : Bytes) : Tree := .str (CText.cut s)

def header (snippet : Snippet) (rowCount : Int) (rowOffset : List Nat) (length currentBlockCount scannedRowCount
    filteredRowCount : Int) : Tree :=
  .obj [
    (ascii "query_id", intField snippet.queryId),
    (ascii "work_id", intField snippet.workId),
    (ascii "row_count", intField rowCount),
    (ascii "row_offset", .arr (rowOffset.map fun offset : Nat => intField offset)),
    (ascii "length", intField length),
    (ascii "return_column_type", .arr (snippet.resultInfo.returnColumnType.map intField)),
    (ascii "return_column_length", .arr (snippet.resultInfo.returnColumnLength.map intField)),
    (ascii "current_block_count", intField currentBlockCount),
    (ascii "scanned_row_count", intField scannedRowCount),
    (ascii "filtered_row_count", intField filteredRowCount),
    (ascii "column_alias", .arr (snippet.resultInfo.columnAlias.map stringField)),
    (ascii "total_block_count", intField snippet.resultInfo.totalBlockCount),
    (ascii "table_alias", stringField snippet.resultInfo.tableAlias)]

def resultHeader (snippet : Snippet) (data : Data) : Tree :=
  header snippet data.rowCount data.rowOffset data.dataLength data.currentBlockCount data.scannedRowCount
    data.filteredRowCount

/-- The whole buffer is sent, whatever it holds. -/
def sendData (write : Tree → Bytes) (result : CsdResult) (calls : Calls) : Option Connection := do
  let snippet ← result.snippet
  pure (exchange (headerText write (resultHeader snippet result.data)) result.data.dataLength
    (read result.data.rawData 0 bufferSize) calls)

end Sending

section Exchange
variable {text : Bytes} {length : Nat} {data : Bytes} {calls : Calls}

theorem sent_of_complete (h : (exchange text length data calls).complete = true) :
    (exchange text length data calls).sent = wire text length data := by
  rw [exchange] at h ⊢
  cases hReply : calls.reply with
  | closed =>
    rw [hReply] at h
    cases h
  | failed =>
    rw [hReply] at h
    cases h
  | received bytes =>
    rw [hReply] at h
    exact of_decide_eq_true h

/-- Every call does what it should for a header and data of these lengths. -/
def wholeCalls (headerLength dataLength : Nat) (reply : Bytes) : Calls :=
  ⟨true, some 8, some headerLength, .received reply, some 8, some dataLength⟩

theorem complete_wholeCalls (text : Bytes) (length : Nat) (data reply : Bytes) :
    (exchange text length data (wholeCalls text.length data.length reply)).complete = true := by
  let calls := wholeCalls text.length data.length reply
  have hWhole : ∀ bytes : Bytes, calls.put (some bytes.length) bytes = bytes := fun bytes => List.take_length
  have hLength := hWhole (natLe 8 text.length)
  have hSize := hWhole (natLe 8 length)
  rw [length_natLe] at hLength hSize
  have hAll : calls.put (some 8) (natLe 8 text.length) ++ calls.put (some text.length) text ++
      (calls.put (some 8) (natLe 8 length) ++ calls.put (some data.length) data) = wire text length data := by
    rw [hLength, hSize, hWhole, hWhole, wire]
  exact decide_eq_true hAll

end Exchange

section Answers

/-- What a message tells the storage engine: rows of a snippet with the numbers of its blocks and rows. -/
structure Answer where
  snippet : Snippet
  rows : List Bytes
  currentBlockCount : CInt
  scannedRowCount : CInt
  filteredRowCount : CInt

def Answer.data (answer : Answer) : Bytes := answer.rows.flatten

/-- The rows are counted, and stand one behind the other. -/
def Answer.header (answer : Answer) : Tree :=
  Return.header answer.snippet answer.rows.length (rowStarts 0 answer.rows) answer.data.length
    answer.currentBlockCount.val answer.scannedRowCount.val answer.filteredRowCount.val

/-- The connection was made for the answer: header and rows are what the calls were given to send, with what the buffer
holds behind the rows. -/
def Carries (write : Tree → Bytes) (answer : Answer) (connection : Connection) : Prop :=
  ∃ behind calls, (answer.data ++ behind).length = bufferSize ∧
    connection = exchange (headerText write answer.header) answer.data.length (answer.data ++ behind) calls

/-- The peer has the header and the rows. -/
def Delivers (write : Tree → Bytes) (answer : Answer) (connection : Connection) : Prop :=
  ∃ behind, (answer.data ++ behind).length = bufferSize ∧
    connection.sent = wire (headerText write answer.header) answer.data.length (answer.data ++ behind)

theorem Carries.delivers {write : Tree → Bytes} {answer : Answer} {connection : Connection}
    (h : Carries write answer connection) (hComplete : connection.complete = true) :
    Delivers write answer connection := by
  obtain ⟨behind, calls, hSize, rfl⟩ := h
  exact ⟨behind, hSize, sent_of_complete hComplete⟩

def answerOf (snippet : Snippet) (data : Data) : Answer :=
  { snippet
    rows := data.messageRows
    currentBlockCount := CInt.wrap data.currentBlockCount
    scannedRowCount := CInt.wrap data.scannedRowCount
    filteredRowCount := CInt.wrap data.filteredRowCount }

theorem intField_wrap (n : Int) : intField (CInt.wrap n).val = intField n := by
  rw [intField, CInt.wrap_val, intField]

variable {snippet : Snippet} {data : Data}

theorem header_answerOf (hOk : MessageOk data) : (answerOf snippet data).header = resultHeader snippet data := by
  have hData : (answerOf snippet data).data.length = data.dataLength := hOk.holds.dataLength.symm
  rw [Answer.header, hData, resultHeader, hOk.holds.rowOffset, hOk.holds.rowCount]
  simp only [header, answerOf, intField_wrap]

theorem carries_answerOf {write : Tree → Bytes} {result : CsdResult} {calls : Calls} {connection : Connection}
    (hSnippet : result.snippet = some snippet) (hOk : MessageOk result.data)
    (h : sendData write result calls = some connection) : Carries write (answerOf snippet result.data) connection := by
  obtain ⟨behind, hBehind⟩ := Nat.exists_eq_add_of_le hOk.fits
  have hData : (answerOf snippet result.data).data.length = result.data.dataLength := hOk.holds.dataLength.symm
  have hRead : read result.data.rawData 0 bufferSize =
      (answerOf snippet result.data).data ++ read result.data.rawData result.data.dataLength behind := by
    rw [hBehind, read_add, Nat.zero_add, hOk.holds.bytes]
    rfl
  rw [sendData, hSnippet] at h
  obtain rfl := Option.some_inj.mp h
  refine ⟨_, calls, (congrArg List.length hRead).symm.trans (length_read _ _ _), ?_⟩
  rw [header_answerOf hOk, hData, ← hRead]

end Answers

end CsdWorker.Return
