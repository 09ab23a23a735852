import CsdWorker.Lib.Endian
import CsdWorker.Tmax.ExCorrect

/-! # From the chunks of the blocks to the results

`write_chunk_list_to_buffer` and the part of `Worker::tmax_working` that drives it. The chunks of all
blocks of a snippet are framed into a buffer, and a full buffer is returned and emptied. The room that is left
is found out with a sum of type `int`, which is not the sum any more for a buffer of almost two gigabytes.
-/

namespace CsdWorker.Tmax

open Memory Endian

set_option autoImplicit false

structure Result where
  id : Int
  data : Mem
  length : Nat
  last : Bool
  chunkCount : Nat

structure Written where
  finished : Bool
  bigChunk : Mem
  currentChunkIdx : Nat
  totalLen : Nat

section Model
variable (chunkList : ChunkList)

/-- The chunk at position `i` with its flag; chained chunks are looked up with the same index. -/
def chunkAt (i : Nat) : Option (Chunk × UInt8) :=
  if i < chunkList.resChunk.length then chunkList.resChunk[i]?.map (·, 0) else chunkList.chainedChunk[i]?.map (·, 1)

/-- The loop from chunk `i` on. A chunk that is read behind its `RES_CHUNK_SIZE` bytes, or written behind the end
of the buffer, is a failed run. -/
def writeFrom (bigChunkSize : Int) (currentChunkIdx : Nat) : Nat → Nat → Nat → Nat → Mem → Option Written
  | _, 0, _, totalLen, bigChunk => some ⟨true, bigChunk, currentChunkIdx, totalLen⟩
  | i, n + 1, bufferOffset, totalLen, bigChunk => do
    let (curChunk, chunkFlag) ← chunkAt chunkList i
    if wrap 4 (bufferOffset + curChunk.used + 3) > bigChunkSize then some ⟨false, bigChunk, i, totalLen⟩
    else if curChunk.used ≤ resChunkSize ∧ (bufferOffset : Int) + 3 + curChunk.used ≤ bigChunkSize then
      let header := [(curChunk.used >>> 8).toUInt8, curChunk.used.toUInt8, chunkFlag]
      writeFrom bigChunkSize currentChunkIdx (i + 1) n (bufferOffset + 3 + curChunk.used)
        (totalLen + 3 + curChunk.used)
        (write (write bigChunk bufferOffset header) (bufferOffset + 3) (read curChunk.buf 0 curChunk.used))
    else none

def writeChunkListToBuffer (bigChunk : Mem) (bigChunkSize : Int) (currentChunkIdx totalLen : Nat) : Option Written :=
  let totalChunkCnt := chunkList.resChunk.length + chunkList.chainedChunk.length
  writeFrom chunkList bigChunkSize currentChunkIdx currentChunkIdx (totalChunkCnt - currentChunkIdx) totalLen totalLen
    bigChunk

def initResult (result : Result) (bufferSize : Int) : Result :=
  { result with data := fun i => if (i : Int) < bufferSize then 0 else result.data i, length := 0, chunkCount := 0 }

/-- The loop `while(!finished)`, with the number of calls it may make. -/
def flushLoop (bufferSize : Int) : Nat → Nat → Result → List Result → Option (Result × List Result)
  | 0, _, _, _ => none
  | fuel + 1, chunkIdx, tResult, returned => do
    let written ← writeChunkListToBuffer chunkList tResult.data bufferSize chunkIdx tResult.length
    let tResult := { tResult with data := written.bigChunk, length := written.totalLen }
    if written.finished then some (tResult, returned)
    else flushLoop bufferSize fuel written.currentChunkIdx (initResult tResult bufferSize) (returned ++ [tResult])

end Model

/-- A block without rows is skipped; for any other there is its chunk list. -/
def workBlock (bufferSize : Int) (fuel : Nat) (s : Result × List Result) :
    Option ChunkList → Option (Result × List Result)
  | none => some ({ s.1 with chunkCount := s.1.chunkCount + 1 }, s.2)
  | some chunkList => flushLoop chunkList bufferSize fuel 0 s.1 s.2

def countChunk (s : Result × List Result) : Result × List Result :=
  ({ s.1 with chunkCount := s.1.chunkCount + 1 }, s.2)

def workChunk (bufferSize : Int) (fuel : Nat) (s : Result × List Result) (blocks : List (Option ChunkList)) :
    Option (Result × List Result) := do
  let s ← blocks.foldlM (workBlock bufferSize fuel) s
  pure (countChunk s)

/-- The results of a snippet whose blocks have been read and filtered. `garbage` is what the buffer holds
when it is allocated. -/
def tmaxWorking (id : Int) (bufferSize : Int) (garbage : Mem) (fuel : Nat) (chunks : List (List (Option ChunkList))) :
    Option (List Result) := do
  let s ← chunks.foldlM (workChunk bufferSize fuel) (⟨id, garbage, 0, false, 0⟩, [])
  pure (s.2 ++ [s.1])

def Result.content (result : Result) : Bytes := read result.data 0 result.length

@[simp] theorem length_resultContent (result : Result) : result.content.length = result.length := length_read _ _ _

theorem natBe_two (n : Nat) : natBe 2 n = [(n >>> 8).toUInt8, n.toUInt8] := by
  have hLow : UInt8.ofNat (n % 256) = n.toUInt8 := UInt8.ofNat_mod_size
  have hHigh : UInt8.ofNat (n / 256 % 256) = (n >>> 8).toUInt8 := by
    rw [Nat.shiftRight_eq_div_pow]
    exact UInt8.ofNat_mod_size
  rw [natBe, natLe, natLe, natLe, hLow, hHigh]
  rfl

/-- A chunk on the wire: its length in two bytes, the flag of the list it is from, its bytes. -/
def frameOf (entry : Chunk × UInt8) : Bytes := natBe 2 entry.1.used ++ entry.2 :: entry.1.content

@[simp] theorem length_frameOf (entry : Chunk × UInt8) : (frameOf entry).length = entry.1.used + 3 := by
  rw [frameOf, natBe_two, List.length_append]
  simp only [List.length_cons, List.length_nil, length_content]
  omega

section Write
variable {chunkList : ChunkList} {bufferSize : Int}

theorem read_write_frameOf (bigChunk : Mem) (offset : Nat) (entry : Chunk × UInt8) :
    read (write (write bigChunk offset [(entry.1.used >>> 8).toUInt8, entry.1.used.toUInt8, entry.2]) (offset + 3)
      (read entry.1.buf 0 entry.1.used)) 0 (offset + 3 + entry.1.used) = read bigChunk 0 offset ++ frameOf entry := by
  have hPayload := read_write_append
    (write bigChunk offset [(entry.1.used >>> 8).toUInt8, entry.1.used.toUInt8, entry.2]) (offset + 3) entry.1.content
  have hHeader := read_write_append bigChunk offset [(entry.1.used >>> 8).toUInt8, entry.1.used.toUInt8, entry.2]
  rw [length_content] at hPayload
  simp only [List.length_cons, List.length_nil] at hHeader
  refine hPayload.trans ?_
  rw [hHeader, frameOf, natBe_two, List.append_assoc]
  rfl

/-- A call writes the frames that fit and says where it stopped. -/
structure Fills (bufferSize : Int) (entries : List (Chunk × UInt8)) (i : Nat) (before : Bytes) (w : Written)
    (done rest : List (Chunk × UInt8)) : Prop where
  split : entries = done ++ rest
  bytes : read w.bigChunk 0 w.totalLen = before ++ (done.map frameOf).flatten
  le : (w.totalLen : Int) ≤ max bufferSize before.length
  finished : w.finished = true → rest = []
  resume : w.finished = false → w.currentChunkIdx = i + done.length ∧
    ∃ entry ∈ rest.head?, bufferSize < (w.totalLen : Int) + (frameOf entry).length

/-- A frame that starts within so many bytes ends below `2 ^ 31`. -/
def NoOverflow (size : Int) : Prop := size + (resChunkSize + 3) < 2 ^ 31

instance (size : Int) : Decidable (NoOverflow size) := inferInstanceAs (Decidable (_ < _))

theorem NoOverflow.mono {size size' : Int} (h : NoOverflow size) (hLe : size' ≤ size) : NoOverflow size' := by
  rw [NoOverflow] at h ⊢
  omega

theorem NoOverflow.max_length {size : Int} {length : Nat} (h : NoOverflow size) (hLe : length ≤ size.toNat) :
    NoOverflow (max size length) := by
  rw [NoOverflow] at h ⊢
  have hChunk : resChunkSize = 65533 := rfl
  omega

theorem wrap_room {offset used : Nat} {size : Int} (h : NoOverflow size) (hOffset : (offset : Int) ≤ size)
    (hUsed : used ≤ resChunkSize) : wrap 4 ((offset : Int) + used + 3) = offset + used + 3 := by
  rw [NoOverflow] at h
  exact wrap_of_fits ⟨by norm_num; omega, by norm_num; omega⟩

section Entry
variable {currentChunkIdx i n offset totalLen : Nat} {bigChunk : Mem} {entry : Chunk × UInt8}

theorem writeFrom_succ (hEntry : chunkAt chunkList i = some entry) :
    writeFrom chunkList bufferSize currentChunkIdx i (n + 1) offset totalLen bigChunk =
      if wrap 4 ((offset : Int) + entry.1.used + 3) > bufferSize then some ⟨false, bigChunk, i, totalLen⟩
      else if entry.1.used ≤ resChunkSize ∧ (offset : Int) + 3 + entry.1.used ≤ bufferSize then
        writeFrom chunkList bufferSize currentChunkIdx (i + 1) n (offset + 3 + entry.1.used)
          (totalLen + 3 + entry.1.used)
          (write (write bigChunk offset [(entry.1.used >>> 8).toUInt8, entry.1.used.toUInt8, entry.2]) (offset + 3)
            (read entry.1.buf 0 entry.1.used))
      else none := by
  obtain ⟨curChunk, chunkFlag⟩ := entry
  simp only [writeFrom, hEntry, Option.bind_eq_bind]
  rw [Option.bind_some]

theorem writeFrom_of_full (hEntry : chunkAt chunkList i = some entry)
    (hFull : bufferSize < wrap 4 ((offset : Int) + entry.1.used + 3)) :
    writeFrom chunkList bufferSize currentChunkIdx i (n + 1) offset totalLen bigChunk =
      some ⟨false, bigChunk, i, totalLen⟩ := by
  rw [writeFrom_succ hEntry, if_pos hFull]

theorem writeFrom_of_room (hEntry : chunkAt chunkList i = some entry)
    (hRoom : wrap 4 ((offset : Int) + entry.1.used + 3) ≤ bufferSize) (hUsed : entry.1.used ≤ resChunkSize)
    (hInside : (offset : Int) + 3 + entry.1.used ≤ bufferSize) :
    writeFrom chunkList bufferSize currentChunkIdx i (n + 1) offset totalLen bigChunk =
      writeFrom chunkList bufferSize currentChunkIdx (i + 1) n (offset + 3 + entry.1.used)
        (totalLen + 3 + entry.1.used)
        (write (write bigChunk offset [(entry.1.used >>> 8).toUInt8, entry.1.used.toUInt8, entry.2]) (offset + 3)
          (read entry.1.buf 0 entry.1.used)) := by
  rw [writeFrom_succ hEntry, if_neg (not_lt.mpr hRoom), if_pos ⟨hUsed, hInside⟩]

/-- Where the sum is not the sum any more, the chunk is written out of the buffer. -/
theorem writeFrom_of_overrun (hEntry : chunkAt chunkList i = some entry)
    (hRoom : wrap 4 ((offset : Int) + entry.1.used + 3) ≤ bufferSize)
    (hOver : bufferSize < (offset : Int) + 3 + entry.1.used) :
    writeFrom chunkList bufferSize currentChunkIdx i (n + 1) offset totalLen bigChunk = none := by
  rw [writeFrom_succ hEntry, if_neg (not_lt.mpr hRoom), if_neg fun h => absurd h.2 (not_le.mpr hOver)]

end Entry

theorem writeFrom_fills (chunkList : ChunkList) (bufferSize : Int) (currentChunkIdx i offset : Nat) (bigChunk : Mem)
    (entries : List (Chunk × UInt8)) (hAt : ∀ j < entries.length, chunkAt chunkList (i + j) = entries[j]?)
    (hSized : ∀ entry ∈ entries, entry.1.used ≤ resChunkSize) (hSmall : NoOverflow (max bufferSize offset)) :
    ∃ w done rest, writeFrom chunkList bufferSize currentChunkIdx i entries.length offset offset bigChunk = some w ∧
      Fills bufferSize entries i (read bigChunk 0 offset) w done rest := by
  induction entries generalizing i offset bigChunk with
  | nil =>
    refine ⟨_, [], [], rfl, rfl, (List.append_nil _).symm, ?_, fun _ => rfl, fun h => ?_⟩
    · rw [length_read]
      exact le_max_right _ _
    · cases h
  | cons entry entries ih =>
    have hEntry : chunkAt chunkList i = some entry := hAt 0 (Nat.zero_lt_succ _)
    obtain ⟨hUsed, hRest⟩ := List.forall_mem_cons.mp hSized
    have hSum := wrap_room hSmall (le_max_right _ _) hUsed
    rw [List.length_cons]
    rcases lt_or_ge bufferSize ((offset : Int) + entry.1.used + 3) with hFull | hFits
    · refine ⟨⟨false, bigChunk, i, offset⟩, [], entry :: entries, writeFrom_of_full hEntry (by rwa [hSum]), rfl,
        (List.append_nil _).symm, ?_, fun h => ?_, fun _ => ⟨rfl, entry, rfl, ?_⟩⟩
      · rw [length_read]
        exact le_max_right _ _
      · cases h
      · rw [length_frameOf]
        push_cast
        omega
    · obtain ⟨w, done, rest, hWrite, hFills⟩ := ih (i + 1) (offset + 3 + entry.1.used)
        (write (write bigChunk offset [(entry.1.used >>> 8).toUInt8, entry.1.used.toUInt8, entry.2]) (offset + 3)
          (read entry.1.buf 0 entry.1.used))
        (fun j hj => by
          rw [Nat.add_right_comm, Nat.add_assoc]
          exact hAt (j + 1) (Nat.succ_lt_succ hj))
        hRest (hSmall.mono (by push_cast; omega))
      have hLe := hFills.le
      rw [length_read] at hLe
      refine ⟨w, entry :: done, rest, (writeFrom_of_room hEntry (by rwa [hSum]) hUsed (by omega)).trans hWrite, ?_, ?_,
        ?_, hFills.finished, fun h => ?_⟩
      · rw [hFills.split, List.cons_append]
      · rw [hFills.bytes, read_write_frameOf, List.map_cons, List.flatten_cons, List.append_assoc]
      · push_cast at hLe
        rw [length_read]
        omega
      · obtain ⟨hIdx, hRest⟩ := hFills.resume h
        exact ⟨by rw [hIdx, List.length_cons]; omega, hRest⟩

end Write

end CsdWorker.Tmax
