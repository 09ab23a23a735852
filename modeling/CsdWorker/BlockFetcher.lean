import CsdWorker.Lib.Endian
import CsdWorker.DataStructure

/-! # Reading a block by its physical addresses

`PbaBlockFetcher` in `block_fetcher.h` and `block_fetcher.cc`. Distances from `internal_buf` are taken modulo `2 ^ 64`,
as `total_read_size` is. An extent without a size is an access outside a vector.
-/

namespace CsdWorker.BlockFetcher

open Memory Endian

set_option autoImplicit false

def footerBlockTrailerSize : Nat := 5

def internalBufSize : Nat := 5000

/-- How `lseek` and `read` end for one extent; `count` is `none` if `read` returns -1. A descriptor that was not opened
fails in both. -/
structure SeekRead where
  sought : Bool
  count : Option Nat

structure Fetch where
  position : Nat
  internalBuf : Mem
  totalReadSize : Nat
  stores : List (Nat × Nat)

def store (m : Mem) (start : Nat) (bytes : Bytes) : Mem := fun i =>
  bytes[unsign 8 ((i : Int) - start)]?.getD (m i)

/-- One turn of the loop. `stores` records where `read` stored how many bytes. -/
def readExtent (device : Mem) (blockOffset blockSize : Nat) (outcome : SeekRead) (s : Fetch) : Fetch :=
  let position := if outcome.sought then blockOffset else s.position
  match outcome.count with
  | none => { s with position := position, totalReadSize := (s.totalReadSize + (2 ^ 64 - 1)) % 2 ^ 64 }
  | some count =>
    let bytes := read device position (min count blockSize)
    { position := position + bytes.length
      internalBuf := store s.internalBuf s.totalReadSize bytes
      totalReadSize := (s.totalReadSize + bytes.length) % 2 ^ 64
      stores := s.stores ++ [(s.totalReadSize, bytes.length)] }

def readExtents (device : Mem) (blockSize : List Nat) (outcome : Nat → SeekRead) : List Nat → Nat → Fetch → Option Fetch
  | [], _, s => some s
  | offset :: offsets, i, s => do
    let size ← blockSize[i]?
    readExtents device blockSize outcome offsets (i + 1) (readExtent device offset size (outcome i) s)

structure BlockContents where
  data : Mem
  size : Nat

def BlockContents.bytes (contents : BlockContents) : Bytes := read contents.data 0 contents.size

structure Fetched where
  ok : Bool
  contents : BlockContents
  stores : List (Nat × Nat)

/-- `internal_buf` after `memset`, with whatever lies around it. -/
def clearedBuf (around : Mem) : Mem := fun i => if i < internalBufSize then 0 else around i

/-- Nothing is assigned to `io_status_`, which starts as OK. -/
def readBlockContentsByPBA (device around : Mem) (blockOffset blockSize : List Nat) (outcome : Nat → SeekRead) :
    Option Fetched := do
  let s ← readExtents device blockSize outcome blockOffset 0 ⟨0, clearedBuf around, 0, []⟩
  let blockSizeWithTrailer : Nat := blockSize.sum % 2 ^ 64
  pure
    { ok := true
      contents := ⟨s.internalBuf, unsign 8 ((blockSizeWithTrailer : Int) - footerBlockTrailerSize)⟩
      stores := s.stores }

def Inside (stored : Nat × Nat) : Prop := stored.2 = 0 ∨ stored.1 + stored.2 ≤ internalBufSize

instance (stored : Nat × Nat) : Decidable (Inside stored) := inferInstanceAs (Decidable (_ ∨ _))

def extentBytes (device : Mem) (extents : List (Nat × Nat)) : Bytes :=
  extents.flatMap fun extent => read device extent.1 extent.2

/-- The block without its trailer or a status that is not OK, and no store outside the buffer. -/
def FetchesExtents (device around : Mem) (blockOffset blockSize : List Nat) (outcome : Nat → SeekRead) : Prop :=
  ∃ fetched, readBlockContentsByPBA device around blockOffset blockSize outcome = some fetched ∧
    (fetched.ok = true →
      fetched.contents.bytes = (extentBytes device (blockOffset.zip blockSize)).rdrop footerBlockTrailerSize) ∧
    ∀ stored ∈ fetched.stores, Inside stored

/-- Every extent is found and read to its end. -/
def Complete (blockSize : List Nat) (outcome : Nat → SeekRead) : Prop :=
  ∀ i size, blockSize[i]? = some size → (outcome i).sought = true ∧ ∃ count, (outcome i).count = some count ∧
    size ≤ count

section Loop
variable (device : Mem)

/-- A turn that reads the whole extent. -/
def storeExtent (s : Fetch) (extent : Nat × Nat) : Fetch :=
  readExtent device extent.1 extent.2 ⟨true, some extent.2⟩ s

theorem readExtent_complete {outcome : SeekRead} {size count : Nat} (hSought : outcome.sought = true)
    (hCount : outcome.count = some count) (hSize : size ≤ count) (offset : Nat) (s : Fetch) :
    readExtent device offset size outcome s = storeExtent device s (offset, size) := by
  simp only [storeExtent, readExtent, hSought, hCount, if_true, min_eq_right hSize, min_self]

theorem readExtents_complete {blockSize : List Nat} {outcome : Nat → SeekRead} (h : Complete blockSize outcome)
    (offsets : List Nat) {i : Nat} (hLength : i + offsets.length ≤ blockSize.length) (s : Fetch) :
    readExtents device blockSize outcome offsets i s =
      some ((offsets.zip (blockSize.drop i)).foldl (storeExtent device) s) := by
  induction offsets generalizing i s with
  | nil => rfl
  | cons offset offsets ih =>
    have hi : i < blockSize.length := by
      rw [List.length_cons] at hLength
      omega
    have hSize : blockSize[i]? = some blockSize[i] := List.getElem?_eq_getElem hi
    obtain ⟨hSought, count, hCount, hLe⟩ := h i _ hSize
    rw [readExtents, hSize, Option.bind_eq_bind, Option.bind_some, readExtent_complete device hSought hCount hLe,
      ih (by rw [List.length_cons] at hLength; omega), List.drop_eq_getElem_cons hi, List.zip_cons_cons,
      List.foldl_cons]

theorem mem_stores_foldl {extents : List (Nat × Nat)} {s : Fetch} {stored : Nat × Nat} (h : stored ∈ s.stores) :
    stored ∈ (extents.foldl (storeExtent device) s).stores := by
  induction extents generalizing s with
  | nil => exact h
  | cons extent extents ih => exact ih (List.mem_append_left _ h)

theorem store_eq_write {m : Mem} {start i : Nat} {bytes : Bytes} (hEnd : start + bytes.length ≤ 2 ^ 64)
    (hi : i < 2 ^ 64) :
    store m start bytes i = write m start bytes i := by
  rw [store, write]
  split
  · rename_i hStart
    rw [unsign_sub hStart hi]
  · rename_i hStart
    -- in front of the start, the distance is one that no bytes reach
    rw [unsign_sub_of_lt (not_le.mp hStart) (Nat.le_of_add_right_le hEnd), List.getElem?_eq_none (by omega),
      Option.getD_none]

theorem read_store (m : Mem) {start : Nat} (bytes : Bytes) (hEnd : start + bytes.length ≤ 2 ^ 64) :
    read (store m start bytes) 0 (start + bytes.length) = read m 0 start ++ bytes := by
  rw [← read_write_append]
  exact read_congr fun i hi => store_eq_write hEnd (by omega)

def extentsSize (extents : List (Nat × Nat)) : Nat := (extents.map Prod.snd).sum

theorem length_extentBytes (extents : List (Nat × Nat)) :
    (extentBytes device extents).length = extentsSize extents := by
  rw [extentBytes, List.length_flatMap, extentsSize]
  simp

variable {s : Fetch}

theorem storeExtent_total {extent : Nat × Nat} (h : s.totalReadSize + extent.2 < 2 ^ 64) :
    (storeExtent device s extent).totalReadSize = s.totalReadSize + extent.2 := by
  simp only [storeExtent, readExtent, min_self, length_read]
  exact Nat.mod_eq_of_lt h

theorem storeExtent_read {extent : Nat × Nat} (h : s.totalReadSize + extent.2 < 2 ^ 64) :
    read (storeExtent device s extent).internalBuf 0 (s.totalReadSize + extent.2) =
      read s.internalBuf 0 s.totalReadSize ++ read device extent.1 extent.2 := by
  have hRead := read_store s.internalBuf (read device extent.1 extent.2) (by rw [length_read]; exact h.le)
  rw [length_read] at hRead
  simp only [storeExtent, readExtent, if_true, min_self]
  exact hRead

/-- Extents that fit stand behind each other in the buffer. -/
theorem foldl_storeExtent_read {extents : List (Nat × Nat)}
    (hFits : s.totalReadSize + extentsSize extents ≤ internalBufSize) (hStores : ∀ stored ∈ s.stores, Inside stored) :
    read (extents.foldl (storeExtent device) s).internalBuf 0 (s.totalReadSize + extentsSize extents) =
        read s.internalBuf 0 s.totalReadSize ++ extentBytes device extents ∧
      ∀ stored ∈ (extents.foldl (storeExtent device) s).stores, Inside stored := by
  induction extents generalizing s with
  | nil => exact ⟨(List.append_nil _).symm, hStores⟩
  | cons extent extents ih =>
    have hSize : extentsSize (extent :: extents) = extent.2 + extentsSize extents := List.sum_cons
    rw [hSize, ← Nat.add_assoc] at hFits ⊢
    have hRoom : s.totalReadSize + extent.2 < 2 ^ 64 := by
      rw [internalBufSize] at hFits
      omega
    have hTotal := storeExtent_total device hRoom
    obtain ⟨hRead, hInside⟩ := ih (s := storeExtent device s extent) (by rw [hTotal]; exact hFits) (by
      refine List.forall_mem_append.mpr ⟨hStores, List.forall_mem_singleton.mpr (Or.inr ?_)⟩
      simp only [min_self, length_read]
      omega)
    rw [hTotal, storeExtent_read device hRoom] at hRead
    refine ⟨?_, hInside⟩
    rw [List.foldl_cons, hRead, extentBytes, extentBytes, List.flatMap_cons, List.append_assoc]

/-- The first extent that does not fit is stored nevertheless. -/
theorem foldl_storeExtent_outside {extents : List (Nat × Nat)} (hInside : s.totalReadSize ≤ internalBufSize)
    (hOver : internalBufSize < s.totalReadSize + extentsSize extents) :
    ∃ stored ∈ (extents.foldl (storeExtent device) s).stores, ¬ Inside stored := by
  induction extents generalizing s with
  | nil => exact absurd hOver (not_lt.mpr hInside)
  | cons extent extents ih =>
    have hSize : extentsSize (extent :: extents) = extent.2 + extentsSize extents := List.sum_cons
    rw [hSize, ← Nat.add_assoc] at hOver
    by_cases hFits : s.totalReadSize + extent.2 ≤ internalBufSize
    · have hTotal : (storeExtent device s extent).totalReadSize = s.totalReadSize + extent.2 :=
        storeExtent_total device (by rw [internalBufSize] at hFits; omega)
      exact ih (by rw [hTotal]; exact hFits) (by rw [hTotal]; exact hOver)
    · refine ⟨(s.totalReadSize, extent.2), mem_stores_foldl device (s := storeExtent device s extent) ?_, ?_⟩
      · refine List.mem_append_right _ (List.mem_singleton.mpr ?_)
        simp only [min_self, length_read]
      · rw [Inside]
        omega

end Loop

theorem readExtents_length {device : Mem} {blockSize : List Nat} {outcome : Nat → SeekRead} {offsets : List Nat}
    {i : Nat} {s s' : Fetch} (hi : i ≤ blockSize.length)
    (h : readExtents device blockSize outcome offsets i s = some s') :
    i + offsets.length ≤ blockSize.length := by
  induction offsets generalizing i s with
  | nil => exact hi
  | cons offset offsets ih =>
    rw [readExtents] at h
    obtain ⟨size, hSize, hRest⟩ := Option.bind_eq_some_iff.mp h
    have hLess : i < blockSize.length := (List.getElem?_eq_some_iff.mp hSize).1
    have hLength := ih hLess hRest
    rw [List.length_cons]
    omega

section Complete
variable {device around : Mem} {blockOffset blockSize : List Nat} {outcome : Nat → SeekRead}

/-- Where every extent is read to its end, the block is fetched as described exactly if there is a size for each extent,
the sizes are those of a block with a trailer, and the extents fit. -/
theorem fetchesExtents_complete (hComplete : Complete blockSize outcome) :
    FetchesExtents device around blockOffset blockSize outcome ↔
      blockOffset.length ≤ blockSize.length ∧ footerBlockTrailerSize ≤ blockSize.sum % 2 ^ 64 ∧
        blockSize.sum % 2 ^ 64 - footerBlockTrailerSize =
          extentsSize (blockOffset.zip blockSize) - footerBlockTrailerSize ∧
        extentsSize (blockOffset.zip blockSize) ≤ internalBufSize := by
  by_cases hLength : blockOffset.length ≤ blockSize.length
  swap
  · refine iff_of_false ?_ fun h => hLength h.1
    rintro ⟨fetched, hFetched, -⟩
    obtain ⟨s, hLoop, -⟩ := Option.bind_eq_some_iff.mp hFetched
    have hCount := readExtents_length (Nat.zero_le _) hLoop
    omega
  have hLoop := readExtents_complete device hComplete blockOffset (i := 0) (by omega) ⟨0, clearedBuf around, 0, []⟩
  rw [List.drop_zero] at hLoop
  have hSum : blockSize.sum % 2 ^ 64 < 256 ^ 8 := Nat.mod_lt _ (by decide)
  rw [and_iff_right hLength, FetchesExtents, readBlockContentsByPBA, hLoop, Option.bind_eq_bind, Option.bind_some]
  constructor
  · rintro ⟨fetched, hFetched, hContents, hStores⟩
    obtain rfl := Option.some_inj.mp hFetched
    have hFits : extentsSize (blockOffset.zip blockSize) ≤ internalBufSize := by
      by_contra hOver
      obtain ⟨stored, hStored, hOutside⟩ := foldl_storeExtent_outside device (s := ⟨0, clearedBuf around, 0, []⟩)
        (Nat.zero_le _) (by rw [Nat.zero_add]; exact not_le.mp hOver)
      exact hOutside (hStores stored hStored)
    have hSize : (read _ 0 (unsign 8 (((blockSize.sum % 2 ^ 64 : Nat) : Int) - footerBlockTrailerSize))).length = _ :=
      congrArg List.length (hContents rfl)
    rw [length_read, List.rdrop, List.length_take, length_extentBytes, min_eq_left (Nat.sub_le _ _)] at hSize
    have hTrailer : footerBlockTrailerSize ≤ blockSize.sum % 2 ^ 64 := by
      -- a size below that of the trailer would wrap to one that no block has
      by_contra hTrailer
      rw [unsign_sub_of_lt (not_le.mp hTrailer) (by decide)] at hSize
      rw [footerBlockTrailerSize] at hSize hTrailer
      rw [internalBufSize] at hFits
      omega
    rw [unsign_sub hTrailer hSum] at hSize
    exact ⟨hTrailer, hSize, hFits⟩
  · rintro ⟨hTrailer, hSize, hFits⟩
    obtain ⟨hRead, hInside⟩ := foldl_storeExtent_read device (s := ⟨0, clearedBuf around, 0, []⟩)
      (by rw [Nat.zero_add]; exact hFits) (by simp)
    rw [Nat.zero_add, read_zero, List.nil_append] at hRead
    refine ⟨_, rfl, fun _ => ?_, hInside⟩
    have hPart := read_of_prefix hRead 0 (extentsSize (blockOffset.zip blockSize) - footerBlockTrailerSize) (by omega)
    rw [BlockContents.bytes, unsign_sub hTrailer hSum, hSize, hPart, List.drop_zero, List.rdrop, length_extentBytes]

end Complete

section OneExtent
variable (around : Mem) (offset size : Nat) (outcome : SeekRead)

/-- The number of bytes that `read` stores. -/
def SeekRead.stored : Nat :=
  match outcome.count with
  | none => 0
  | some count => min count size

def SeekRead.start : Nat := if outcome.sought then offset else 0

/-- The buffer after the only extent. -/
theorem readExtent_held (device : Mem) {k : Nat} (hk : k < 2 ^ 64) :
    (readExtent device offset size outcome ⟨0, clearedBuf around, 0, []⟩).internalBuf k =
      if k < outcome.stored size then device (outcome.start offset + k) else clearedBuf around k := by
  rw [readExtent, SeekRead.stored, SeekRead.start]
  cases outcome.count with
  | none => rfl
  | some count =>
    have hDistance : unsign 8 ((k : Int) - (0 : Nat)) = k := by rw [unsign_sub (Nat.zero_le k) hk, Nat.sub_zero]
    simp only [store, hDistance, getElem?_read]
    split_ifs <;> rfl

theorem readExtent_inside (device : Mem) :
    (∀ stored ∈ (readExtent device offset size outcome ⟨0, clearedBuf around, 0, []⟩).stores, Inside stored) ↔
      outcome.stored size ≤ internalBufSize := by
  rw [readExtent, SeekRead.stored]
  cases outcome.count with
  | none => simp
  | some count =>
    simp only [List.nil_append, List.forall_mem_singleton, length_read, Inside]
    omega

/-- The extent is read up to the trailer, from where it lies. -/
def ReachesTrailer : Prop :=
  outcome.start offset = offset ∧ size - footerBlockTrailerSize ≤ outcome.stored size ∧
    outcome.stored size ≤ internalBufSize

instance : Decidable (ReachesTrailer offset size outcome) := inferInstanceAs (Decidable (_ ∧ _))

variable {around offset size outcome}

theorem fetchesExtents_one {device : Mem} :
    FetchesExtents device around [offset] [size] (fun _ => outcome) ↔
      read (readExtent device offset size outcome ⟨0, clearedBuf around, 0, []⟩).internalBuf 0
          (unsign 8 (((size % 2 ^ 64 : Nat) : Int) - footerBlockTrailerSize)) =
        (read device offset size).rdrop footerBlockTrailerSize ∧ outcome.stored size ≤ internalBufSize := by
  rw [← readExtent_inside around offset size outcome device]
  have hBytes : extentBytes device ([offset].zip [size]) = read device offset size := List.append_nil _
  constructor
  · rintro ⟨fetched, hFetched, hContents, hStores⟩
    obtain rfl := Option.some_inj.mp hFetched
    exact ⟨hBytes ▸ hContents rfl, hStores⟩
  · rintro ⟨hContents, hStores⟩
    exact ⟨_, rfl, fun _ => hBytes.symm ▸ hContents, hStores⟩

theorem length_rdrop_read (device : Mem) :
    ((read device offset size).rdrop footerBlockTrailerSize).length = size - footerBlockTrailerSize := by
  rw [List.rdrop, List.length_take, length_read, min_eq_left (Nat.sub_le _ _)]

theorem rdrop_read (device : Mem) :
    (read device offset size).rdrop footerBlockTrailerSize = read device offset (size - footerBlockTrailerSize) := by
  have hPart := read_of_prefix (rfl : read device offset size = _) 0 (size - footerBlockTrailerSize) (by omega)
  rw [List.rdrop, length_read]
  exact hPart.symm

theorem held_of_fetchesExtents {device : Mem} (h : FetchesExtents device around [offset] [size] fun _ => outcome)
    {k : Nat} (hk : k < size - footerBlockTrailerSize) (hSmall : k < 2 ^ 64) :
    (if k < outcome.stored size then device (outcome.start offset + k) else clearedBuf around k) =
      device (offset + k) := by
  have hContents := (fetchesExtents_one.mp h).1
  have hLength := congrArg List.length hContents
  rw [length_read, length_rdrop_read] at hLength
  have hByte := congrArg (fun bytes : Bytes => bytes[k]?) hContents
  simp only [rdrop_read, hLength, getElem?_read, if_pos hk, Nat.zero_add, Option.some_inj] at hByte
  rw [← readExtent_held around offset size outcome device hSmall]
  exact hByte

theorem trailer_of_fetchesExtents {device : Mem} (h : FetchesExtents device around [offset] [size] fun _ => outcome) :
    footerBlockTrailerSize ≤ size := by
  by_contra hSize
  have hLength := congrArg List.length (fetchesExtents_one.mp h).1
  rw [length_read, length_rdrop_read, Nat.mod_eq_of_lt ((not_le.mp hSize).trans (by decide)),
    unsign_sub_of_lt (not_le.mp hSize) (by decide)] at hLength
  rw [footerBlockTrailerSize] at hSize hLength
  omega

theorem reachesTrailer_of_forall (h : ∀ device, FetchesExtents device around [offset] [size] fun _ => outcome)
    (hSize : footerBlockTrailerSize < size) : ReachesTrailer offset size outcome := by
  have hInside := (fetchesExtents_one.mp (h zeroed)).2
  have hReached : size - footerBlockTrailerSize ≤ outcome.stored size := by
    -- the first byte that was not read does not depend on the device
    by_contra hMissing
    have hByte := held_of_fetchesExtents (h fun _ => clearedBuf around (outcome.stored size) + 1) (not_le.mp hMissing)
      (hInside.trans_lt (by decide))
    rw [if_neg (lt_irrefl _)] at hByte
    simp at hByte
  refine ⟨?_, hReached, hInside⟩
  have hByte :=
    held_of_fetchesExtents (h fun address => if address = offset then 1 else 0) (k := 0) (by omega) (by decide)
  rw [if_pos (by omega), Nat.add_zero, Nat.add_zero, if_pos rfl] at hByte
  by_contra hStart
  rw [if_neg hStart] at hByte
  cases hByte

theorem fetchesExtents_trailer (device : Mem) :
    FetchesExtents device around [offset] [footerBlockTrailerSize] fun _ => outcome := by
  refine fetchesExtents_one.mpr ⟨?_, ?_⟩
  · rw [rdrop_read]
    rfl
  · rw [SeekRead.stored]
    cases outcome.count with
    | none => decide
    | some count => exact (min_le_right _ _).trans (by decide)

theorem ReachesTrailer.fetchesExtents (h : ReachesTrailer offset size outcome) (hSize : footerBlockTrailerSize ≤ size)
    (device : Mem) : FetchesExtents device around [offset] [size] fun _ => outcome := by
  obtain ⟨hStart, hReached, hInside⟩ := h
  have hBound : size - footerBlockTrailerSize ≤ internalBufSize := hReached.trans hInside
  have hModulo : size % 2 ^ 64 = size := Nat.mod_eq_of_lt (by
    rw [footerBlockTrailerSize, internalBufSize] at hBound
    omega)
  refine fetchesExtents_one.mpr ⟨?_, hInside⟩
  rw [hModulo, unsign_sub hSize (hModulo ▸ Nat.mod_lt _ (by decide)), rdrop_read]
  refine read_congr fun k hk => ?_
  rw [Nat.zero_add, readExtent_held around offset size outcome device (by rw [internalBufSize] at hBound; omega),
    if_pos (by omega), hStart]

/-- One extent is fetched as described from every device exactly if only the trailer is missing. -/
theorem forall_fetchesExtents_one :
    (∀ device, FetchesExtents device around [offset] [size] fun _ => outcome) ↔
      size = footerBlockTrailerSize ∨ footerBlockTrailerSize < size ∧ ReachesTrailer offset size outcome := by
  constructor
  · intro h
    obtain hSize | hSize := Nat.eq_or_lt_of_le (trailer_of_fetchesExtents (h zeroed))
    · exact Or.inl hSize.symm
    · exact Or.inr ⟨hSize, reachesTrailer_of_forall h hSize⟩
  · rintro (rfl | ⟨hSize, hReaches⟩) device
    · exact fetchesExtents_trailer device
    · exact hReaches.fetchesExtents hSize.le device

end OneExtent

/-- Extents that are read to their end make the block exactly if there is a size for each, the sizes are those of a
block with a trailer, and the extents fit. A single extent may also end early or lie where no seek is needed, if only
the trailer is missing. -/
theorem fetchesExtents_iff (around : Mem) :
    (∀ (device : Mem) (blockOffset blockSize : List Nat) (outcome : Nat → SeekRead), Complete blockSize outcome →
      (FetchesExtents device around blockOffset blockSize outcome ↔
        blockOffset.length ≤ blockSize.length ∧ footerBlockTrailerSize ≤ blockSize.sum % 2 ^ 64 ∧
          blockSize.sum % 2 ^ 64 - footerBlockTrailerSize =
            extentsSize (blockOffset.zip blockSize) - footerBlockTrailerSize ∧
          extentsSize (blockOffset.zip blockSize) ≤ internalBufSize)) ∧
      ∀ (offset size : Nat) (outcome : SeekRead),
        (∀ device, FetchesExtents device around [offset] [size] fun _ => outcome) ↔
          size = footerBlockTrailerSize ∨ footerBlockTrailerSize < size ∧ ReachesTrailer offset size outcome :=
  ⟨fun _ _ _ _ hComplete => fetchesExtents_complete hComplete, fun _ _ _ => forall_fetchesExtents_one⟩

/-- A device of ones. -/
def onesDevice : Mem := fun _ => 1

theorem small_block_fetched : FetchesExtents onesDevice zeroed [4096, 0] [3, 4] fun _ => ⟨true, some 4⟩ := by
  have hSizes : ∀ size ∈ [3, 4], size ≤ 4 := by decide
  refine ((fetchesExtents_iff zeroed).1 onesDevice [4096, 0] [3, 4] _ fun i size hSize => ?_).mpr (by decide)
  exact ⟨rfl, 4, rfl, hSizes size (List.mem_of_getElem? hSize)⟩

/-- A block that could not be read is taken for zeros, and one of 6000 bytes is stored over what follows the buffer. -/
theorem unread_block_is_ok :
    ¬ FetchesExtents onesDevice zeroed [0] [6] (fun _ => ⟨true, none⟩) ∧
      ¬ FetchesExtents onesDevice zeroed [0] [6000] fun _ => ⟨true, some 6000⟩ := by
  constructor
  · rintro ⟨fetched, hFetched, hContents, -⟩
    obtain rfl := Option.some_inj.mp hFetched
    exact absurd (hContents rfl) (by decide)
  · rintro ⟨fetched, hFetched, -, hStores⟩
    obtain rfl := Option.some_inj.mp hFetched
    have hInside := hStores (0, (read onesDevice 0 6000).length) List.mem_cons_self
    rw [length_read] at hInside
    exact absurd hInside (by decide)

end CsdWorker.BlockFetcher
