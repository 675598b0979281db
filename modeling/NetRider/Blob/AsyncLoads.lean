import NetRider.Blob.AsyncTurns

/-!
# Which ranges an asynchronous load delivers
-/

namespace NetRider.Blob

open NetRider.Wtf BlobResourceHandle

section

variable {items : List BlobDataItem} {split : Address → Nat} {h : BlobResourceHandle}
variable {data : List Address}

/-! ## From item to item -/

theorem castInt_lt {value : Int} (large : ¬ value ≤ intMax) : castInt value < value := by
  have less := @Int.bmod_lt value (2 ^ 32) (by decide)
  simp only [castInt, intMax] at large ⊢
  omega

/-- What is read of an item fits an `int`, where the code casts it to one. -/
def PortionFits (item : BlobDataItem) (skipped count : Nat) : Prop :=
  match item with
  | .data _ _ length => ((min (length - skipped) count : Nat) : Int) ≤ intMax
  | .file .. => item.itemLength - skipped ≤ count ∨ (count : Int) ≤ intMax

/-- The handle behind an item of which so many bytes were read. -/
def behind (h : BlobResourceHandle) (item : BlobDataItem) (n : Nat) : BlobResourceHandle :=
  { h with
    fileOpened := none
    readItemCount := h.readItemCount + 1
    totalRemainingSize := h.totalRemainingSize - n
    currentItemReadSize := if item.isData then h.currentItemReadSize else 0 }

theorem copySize_eq {length skipped count : Nat} (place : h.currentItemReadSize = skipped)
    (within : skipped ≤ length) (total : h.totalRemainingSize = count) :
    copySize h length = castInt (min (length - skipped) count : Nat) := by
  unfold copySize
  rw [place, total]
  congr 1
  split_ifs <;> omega

theorem inside_file {size offset : Nat} {length : Option Nat}
    (wellFormed : BlobDataItem.WellFormed (.file size offset length)) :
    offset + (BlobDataItem.file size offset length).itemLength ≤ size := by
  cases length with
  | none =>
    simp only [BlobDataItem.WellFormed] at wellFormed
    simp [BlobDataItem.itemLength, wellFormed]
  | some length => exact wellFormed

/-- The stream of a file that is opened at the current place. -/
def opening (h : BlobResourceHandle) (item : BlobDataItem) : FileStream :=
  .openForRead (item.offset + h.currentItemReadSize)
    (if item.itemLength - h.currentItemReadSize > h.totalRemainingSize
      then castInt h.totalRemainingSize else item.itemLength - h.currentItemReadSize)

def opened (h : BlobResourceHandle) (item : BlobDataItem) : BlobResourceHandle :=
  { h with fileOpened := some (opening h item), currentItemReadSize := 0 }

theorem readFileAsync_closed {item : BlobDataItem} (closed : h.fileOpened = none) :
    (h.readFileAsync item).1 = opened h item := by
  simp only [readFileAsync, closed]
  rfl

theorem opening_position {item : BlobDataItem} {skipped : Nat}
    (place : h.currentItemReadSize = skipped) :
    (opening h item).position = item.offset + skipped := by
  simp only [opening, FileStream.openForRead, place]
  split_ifs <;> omega

section

variable {item : BlobDataItem} {skipped count : Nat}

/-- Of a file the client gets what the stream was opened for. -/
theorem reads_opening {size offset r : Nat} {length : Option Nat} (closed : h.fileOpened = none)
    (found : items[h.readItemCount]? = some (.file size offset length))
    (place : h.currentItemReadSize = skipped)
    (left : (opening h (.file size offset length)).remaining = r)
    (inside : offset + skipped + r ≤ size)
    (within : r ≤ h.totalRemainingSize) (more : h.totalRemainingSize ≠ 0) :
    Reads items split h data ↔ ∃ rest, Reads items split (behind h (.file size offset length) r) rest ∧
      data = bytesAt h.readItemCount (offset + skipped) r ++ rest := by
  have position := @opening_position h (.file size offset length) skipped place
  rw [reads_file closed more found, readFileAsync_closed closed]
  have loop := @delivers_file items split (opened h (.file size offset length)) data size offset r
    length _ rfl found left (by rw [position]; exact inside) within more
  rw [loop, position]
  rfl

/-- Of a file whose stream was opened for nothing the client gets nothing. -/
theorem reads_nothing {size offset : Nat} {length : Option Nat} (closed : h.fileOpened = none)
    (found : items[h.readItemCount]? = some (.file size offset length))
    (place : h.currentItemReadSize = skipped)
    (negative : (opening h (.file size offset length)).remaining < 0)
    (ends : castInt (opening h (.file size offset length)).remaining ≤ 0 ∨ size ≤ offset + skipped)
    (more : h.totalRemainingSize ≠ 0) :
    Reads items split h data ↔
      Reads items split (behind h (.file size offset length) 0) data := by
  have position := @opening_position h (.file size offset length) skipped place
  have none_ : chunk split (opened h (.file size offset length))
      (opening h (.file size offset length)) (.file size offset length) = 0 := by
    simp only [chunk, BlobDataItem.size, FileStream.bytesToRead, position, BlobDataItem.offset]
    rw [if_pos (by omega)]
    omega
  rw [reads_file closed more found, readFileAsync_closed closed,
    @delivers_didRead items split (opened h (.file size offset length)) data _ _ rfl found, none_]
  simp [consumeFile, opened, behind, bytesAt, BlobDataItem.isData]

theorem reads_item (closed : h.fileOpened = none) (found : items[h.readItemCount]? = some item)
    (wellFormed : item.WellFormed) (place : h.currentItemReadSize = skipped)
    (within : skipped ≤ item.itemLength) (total : h.totalRemainingSize = count) (more : 0 < count)
    (fits : PortionFits item skipped count) :
    Reads items split h data ↔
      ∃ rest, Reads items split (behind h item (min (item.itemLength - skipped) count)) rest ∧
        data = bytesAt h.readItemCount (item.offset + skipped)
          (min (item.itemLength - skipped) count) ++ rest := by
  cases item with
  | data size offset length =>
    change skipped ≤ length at within
    have copied := copySize_eq place within total
    rw [castInt_eq (by omega) fits] at copied
    have position : ((offset : Int) + h.currentItemReadSize).toNat = offset + skipped := by omega
    have read : h.readDataAsync size offset length = some (bytesAt h.readItemCount
        (offset + skipped) (min (length - skipped) count)) := by
      rw [readDataAsync_eq_some, copied, position]
      have inside : offset + length ≤ size := wellFormed
      exact ⟨by omega, by omega, congrArg _ (by omega)⟩
    rw [reads_data closed (by omega) found]
    simp only [read, Option.some.injEq, BlobDataItem.itemLength, BlobDataItem.offset]
    have next : h.consumeItem (bytesAt h.readItemCount (offset + skipped)
        (min (length - skipped) count)).length =
          behind h (.data size offset length) (min (length - skipped) count) := by
      simp [consumeItem, behind, length_bytesAt, closed, BlobDataItem.isData]
    constructor
    · rintro ⟨_, rest, rfl, reads, rfl⟩
      exact ⟨rest, next ▸ reads, rfl⟩
    · rintro ⟨rest, reads, rfl⟩
      exact ⟨_, rest, rfl, next ▸ reads, rfl⟩
  | file size offset length =>
    have inside := inside_file wellFormed
    have left : (opening h (.file size offset length)).remaining =
        (min ((BlobDataItem.file size offset length).itemLength - skipped) count : Nat) := by
      simp only [opening, FileStream.openForRead, place, total]
      split_ifs with less
      · obtain fits | fits := fits
        · omega
        · rw [castInt_eq (by omega) fits]
          omega
      · omega
    exact reads_opening closed found place left (by omega) (by omega) (by omega)

/-- Where a cast changes the size, bytes of the item are missing. -/
theorem not_reads_item (closed : h.fileOpened = none) (found : items[h.readItemCount]? = some item)
    (wellFormed : item.WellFormed) (place : h.currentItemReadSize = skipped)
    (within : skipped ≤ item.itemLength) (total : h.totalRemainingSize = count) (more : 0 < count)
    (large : ¬ PortionFits item skipped count)
    (asked : ∀ k < min (item.itemLength - skipped) count,
      (h.readItemCount, item.offset + skipped + k) ∈ data) :
    ¬ Reads items split h data := by
  intro reads
  cases item with
  | data size offset length =>
    change skipped ≤ length at within
    have less := castInt_lt large
    have copied := copySize_eq place within total
    clear large
    generalize castInt (min (length - skipped) count : Nat) = c at less copied
    obtain ⟨bytes, rest, read, later, rfl⟩ := (reads_data closed (by omega) found).mp reads
    obtain ⟨some_, -, rfl⟩ := readDataAsync_eq_some.mp read
    rw [copied] at some_ asked
    rcases List.mem_append.mp (asked c.toNat (by simp only [BlobDataItem.itemLength]; omega))
      with member | member
    · obtain ⟨-, -, high⟩ := mem_bytesAt.mp member
      simp only [BlobDataItem.offset] at high
      omega
    · have later := @reads_ahead _ _ (h.consumeItem _) _ closed later _ member
      simp only [consumeItem] at later
      omega
  | file size offset length =>
    have inside := inside_file wellFormed
    simp only [PortionFits, not_or] at large
    have less := castInt_lt large.2
    have cut := large.1
    have twice : castInt (castInt count) = castInt count := Int.bmod_bmod
    have left : (opening h (.file size offset length)).remaining = castInt count := by
      simp only [opening, FileStream.openForRead, place, total]
      rw [if_pos (by omega)]
    clear large
    generalize castInt count = c at less twice left
    obtain ⟨r, short, missing⟩ : ∃ r < count, ∃ rest, Reads items split
        (behind h (.file size offset length) r) rest ∧
          data = bytesAt h.readItemCount (offset + skipped) r ++ rest := by
      by_cases negative : c < 0
      · have later := (reads_nothing closed found place (by rw [left]; exact negative)
          (by rw [left, twice]; omega) (by omega)).mp reads
        exact ⟨0, more, data, later, by simp [bytesAt]⟩
      · obtain ⟨r, rfl⟩ := Int.eq_ofNat_of_zero_le (not_lt.mp negative)
        exact ⟨r, by omega, (reads_opening closed found place left (by omega) (by omega)
          (by omega)).mp reads⟩
    obtain ⟨rest, later, rfl⟩ := missing
    rcases List.mem_append.mp (asked r (by omega)) with member | member
    · obtain ⟨-, -, high⟩ := mem_bytesAt.mp member
      simp only [BlobDataItem.offset] at high
      omega
    · have later := reads_ahead rfl later member
      simp only [behind] at later
      omega

/-- What is to be read from an item on. -/
theorem take_blobFrom {rest : List BlobDataItem} (within : skipped ≤ item.itemLength) (first : Nat) :
    ((blobFrom first (item :: rest)).drop skipped).take count =
      bytesAt first (item.offset + skipped) (min (item.itemLength - skipped) count) ++
        (blobFrom (first + 1) rest).take (count - (item.itemLength - skipped)) := by
  rw [blobFrom, List.drop_append_of_le_length (by rw [length_bytesAt]; exact within),
    drop_bytesAt within, List.take_append, length_bytesAt]
  congr 1
  by_cases fits : item.itemLength - skipped ≤ count
  · rw [List.take_of_length_le (by rw [length_bytesAt]; exact fits), Nat.min_eq_left fits]
  · rw [take_bytesAt (by omega), Nat.min_eq_right (by omega)]

/-- In a row of items that is read from the start of the first. -/
def PortionsFit : List BlobDataItem → (count : Nat) → Prop
  | [], _ => True
  | item :: items, count =>
    count = 0 ∨ (PortionFits item 0 count ∧ PortionsFit items (count - item.itemLength))

/-- The item is done if and only if its portion fits; the rest follows. -/
theorem reads_portion {rest : List BlobDataItem} (closed : h.fileOpened = none)
    (left : items.drop h.readItemCount = item :: rest) (wellFormed : item.WellFormed)
    (place : h.currentItemReadSize = skipped) (within : skipped ≤ item.itemLength)
    (total : h.totalRemainingSize = count) (more : 0 < count) :
    Reads items split h (((blobFrom h.readItemCount (item :: rest)).drop skipped).take count) ↔
      PortionFits item skipped count ∧
        Reads items split (behind h item (min (item.itemLength - skipped) count))
          ((blobFrom (h.readItemCount + 1) rest).take (count - (item.itemLength - skipped))) := by
  have found : items[h.readItemCount]? = some item := by
    rw [← List.head?_drop, left]
    rfl
  rw [take_blobFrom within]
  by_cases fits : PortionFits item skipped count
  · rw [reads_item closed found wellFormed place within total more fits]
    constructor
    · rintro ⟨rest', reads, same⟩
      exact ⟨fits, List.append_cancel_left same ▸ reads⟩
    · rintro ⟨-, reads⟩
      exact ⟨_, reads, rfl⟩
  · refine iff_of_false ?_ (fun both => fits both.1)
    apply not_reads_item closed found wellFormed place within total more fits
    intro k less
    apply List.mem_append_left
    exact mem_bytesAt.mpr ⟨rfl, by simp only; omega, by simp only; omega⟩

theorem reads_portions {rest : List BlobDataItem} (wellFormed : ∀ item ∈ rest, item.WellFormed)
    (left : items.drop h.readItemCount = rest) (closed : h.fileOpened = none)
    (place : h.currentItemReadSize = 0) (total : h.totalRemainingSize = count) :
    Reads items split h ((blobFrom h.readItemCount rest).take count) ↔ PortionsFit rest count := by
  induction rest generalizing h count with
  | nil =>
    have past : items[h.readItemCount]? = none := by rw [← List.head?_drop, left]; rfl
    rw [reads_done (.inr past)]
    simp [blobFrom, PortionsFit]
  | cons item rest ih =>
    rw [PortionsFit]
    by_cases more : count = 0
    · rw [reads_done (.inl (by omega)), more]
      simp
    · have portion := @reads_portion items split h item 0 count rest closed left
        (wellFormed item List.mem_cons_self) place (Nat.zero_le _) total (by omega)
      rw [List.drop_zero, Nat.sub_zero] at portion
      have left' : items.drop (h.readItemCount + 1) = rest := by
        rw [← List.drop_drop, left]
        rfl
      have next := @ih (behind h item (min item.itemLength count)) (count - item.itemLength)
        (fun item' member => wellFormed item' (List.mem_cons_of_mem _ member)) left' rfl
        (by simp [behind, place]) (by simp only [behind, total]; omega)
      rw [portion, or_iff_right more]
      exact and_congr_right fun _ => next

/-- Items that are begun at a place that an earlier item has left. -/
def Recovers : List BlobDataItem → (skipped count : Nat) → Prop
  | [], _, _ => True
  | .data _ _ length :: items, skipped, count =>
    count = 0 ∨ (length = 0 ∧ castInt (-skipped) = 0 ∧ Recovers items skipped count)
  | .file size offset length :: items, skipped, count =>
    count = 0 ∨ ((BlobDataItem.file size offset length).itemLength = 0 ∧
      (castInt (-skipped) ≤ 0 ∨ size ≤ offset + skipped) ∧ PortionsFit items count)

/-- The first byte of an item that is not empty is asked for. -/
theorem first_asked {rest : List BlobDataItem} {first : Nat} (some_ : item.itemLength ≠ 0)
    (more : count ≠ 0) : (first, item.offset) ∈ (blobFrom first (item :: rest)).take count := by
  have asked := @take_blobFrom item 0 count rest (Nat.zero_le _) first
  rw [List.drop_zero] at asked
  rw [asked]
  apply List.mem_append_left
  exact mem_bytesAt.mpr ⟨rfl, by simp only; omega, by simp only; omega⟩

theorem reads_stale_data {size offset length : Nat} {rest : List BlobDataItem}
    (closed : h.fileOpened = none)
    (found : items[h.readItemCount]? = some (.data size offset length))
    (place : h.currentItemReadSize = skipped) (stale : 0 < skipped)
    (total : h.totalRemainingSize = count) (more : count ≠ 0) :
    Reads items split h ((blobFrom h.readItemCount (.data size offset length :: rest)).take count) ↔
      length = 0 ∧ castInt (-skipped) = 0 ∧
        Reads items split (h.consumeItem 0) ((blobFrom (h.readItemCount + 1) rest).take count) := by
  rw [reads_data closed (by omega) found]
  by_cases empty : length = 0
  · subst empty
    have copied : copySize h 0 = castInt (-skipped) := by
      unfold copySize
      rw [place, total, if_neg (by omega)]
      congr 1
      omega
    have want : blobFrom h.readItemCount (.data size offset 0 :: rest) =
        blobFrom (h.readItemCount + 1) rest := rfl
    rw [want]
    constructor
    · rintro ⟨bytes, rest', read, reads, same⟩
      obtain ⟨least, most, rfl⟩ := readDataAsync_eq_some.mp read
      have zero : copySize h 0 = 0 := by
        generalize copySize h 0 = c at least most
        omega
      rw [zero] at same reads
      simp only [bytesAt, Int.toNat_zero, List.range'_zero, List.map_nil, List.nil_append,
        List.length_nil] at same reads
      exact ⟨rfl, copied.symm.trans zero, same ▸ reads⟩
    · rintro ⟨-, zero, reads⟩
      refine ⟨[], _, ?_, reads, rfl⟩
      rw [readDataAsync_eq_some, copied, zero]
      simp [bytesAt]
  · refine iff_of_false ?_ (fun all => empty all.1)
    rintro ⟨bytes, rest', read, reads, same⟩
    obtain ⟨least, most, rfl⟩ := readDataAsync_eq_some.mp read
    have asked := @first_asked (.data size offset length) count rest h.readItemCount empty more
    rw [same] at asked
    rcases List.mem_append.mp asked with member | member
    · obtain ⟨-, low, -⟩ := mem_bytesAt.mp member
      simp only [BlobDataItem.offset, place] at low
      omega
    · have later := @reads_ahead _ _ (h.consumeItem _) _ closed reads _ member
      simp only [consumeItem] at later
      omega

theorem reads_stale_file {size offset : Nat} {length : Option Nat} {rest : List BlobDataItem}
    (closed : h.fileOpened = none)
    (found : items[h.readItemCount]? = some (.file size offset length))
    (place : h.currentItemReadSize = skipped) (stale : 0 < skipped)
    (total : h.totalRemainingSize = count) (more : count ≠ 0) :
    Reads items split h ((blobFrom h.readItemCount (.file size offset length :: rest)).take count) ↔
      (BlobDataItem.file size offset length).itemLength = 0 ∧
      (castInt (-skipped) ≤ 0 ∨ size ≤ offset + skipped) ∧
        Reads items split (behind h (.file size offset length) 0)
          ((blobFrom (h.readItemCount + 1) rest).take count) := by
  have position := @opening_position h (.file size offset length) skipped place
  by_cases empty : (BlobDataItem.file size offset length).itemLength = 0
  · have remaining : (opening h (.file size offset length)).remaining = -skipped := by
      simp only [opening, FileStream.openForRead, empty, place, total]
      rw [if_neg (by omega)]
      omega
    have want : blobFrom h.readItemCount (.file size offset length :: rest) =
        blobFrom (h.readItemCount + 1) rest := by
      rw [blobFrom, empty]
      rfl
    rw [want]
    by_cases ends : castInt (-skipped) ≤ 0 ∨ size ≤ offset + skipped
    · rw [reads_nothing closed found place (by omega) (by rw [remaining]; exact ends) (by omega)]
      simp [empty, ends]
    · refine iff_of_false ?_ (fun all => ends all.2.1)
      intro reads
      rw [reads_file closed (by omega) found, readFileAsync_closed closed] at reads
      -- the stream gives a byte, although the slice has none
      have some_ : 0 < chunk split (opened h (.file size offset length))
          (opening h (.file size offset length)) (.file size offset length) := by
        simp only [chunk, BlobDataItem.size, FileStream.bytesToRead, position, remaining,
          BlobDataItem.offset]
        rw [if_pos (by omega)]
        omega
      obtain ⟨rest', -, same⟩ :=
        (@delivers_didRead items split (opened h (.file size offset length)) _ _ _ rfl found).mp reads
      have member : (h.readItemCount, (opening h (.file size offset length)).position) ∈
          (blobFrom (h.readItemCount + 1) rest).take count := by
        rw [same]
        apply List.mem_append_left
        exact mem_bytesAt.mpr ⟨rfl, le_rfl, by simp only; omega⟩
      have later := (nodup_blobFrom _ rest).2 _ (List.mem_of_mem_take member)
      simp only at later
      omega
  · refine iff_of_false ?_ (fun all => empty all.1)
    intro reads
    rw [reads_file closed (by omega) found, readFileAsync_closed closed] at reads
    have asked := @first_asked (.file size offset length) count rest h.readItemCount empty more
    have file : AtFile items (opened h (.file size offset length)) := ⟨size, offset, length, found⟩
    obtain later | ⟨-, passed⟩ := delivers_ahead (.inr file) reads _ asked
    · simp [opened] at later
    · have low := passed _ rfl
      rw [position] at low
      simp only [BlobDataItem.offset] at low
      omega

theorem reads_recovers {rest : List BlobDataItem} (wellFormed : ∀ item ∈ rest, item.WellFormed)
    (left : items.drop h.readItemCount = rest) (closed : h.fileOpened = none)
    (place : h.currentItemReadSize = skipped) (stale : 0 < skipped)
    (total : h.totalRemainingSize = count) :
    Reads items split h ((blobFrom h.readItemCount rest).take count) ↔
      Recovers rest skipped count := by
  induction rest generalizing h with
  | nil =>
    have past : items[h.readItemCount]? = none := by rw [← List.head?_drop, left]; rfl
    rw [reads_done (.inr past)]
    simp [blobFrom, Recovers]
  | cons item rest ih =>
    have found : items[h.readItemCount]? = some item := by
      rw [← List.head?_drop, left]
      rfl
    have left' : items.drop (h.readItemCount + 1) = rest := by
      rw [← List.drop_drop, left]
      rfl
    have wellFormed' : ∀ item ∈ rest, item.WellFormed :=
      fun item member => wellFormed item (List.mem_cons_of_mem _ member)
    by_cases more : count = 0
    · rw [reads_done (.inl (by omega)), more]
      cases item <;> simp [Recovers]
    · cases item with
      | data size offset length =>
        have next := @ih (h.consumeItem 0) wellFormed' left' closed place
          (by simp only [consumeItem, total]; omega)
        rw [reads_stale_data closed found place stale total more, Recovers, or_iff_right more]
        exact and_congr_right fun _ => and_congr_right fun _ => next
      | file size offset length =>
        have next := @reads_portions items split (behind h (.file size offset length) 0) count rest
          wellFormed' left' rfl rfl (by simp only [behind, total]; omega)
        rw [reads_stale_file closed found place stale total more, Recovers, or_iff_right more]
        exact and_congr_right fun _ => and_congr_right fun _ => next

/-! ## The whole load -/

/-- The bytes of the blob from here on are loaded: in every portion the casts to `int` are right, and
if the first portion is the end of a data item, its offset does no harm to the next item. -/
def BytesLoad : List BlobDataItem → (first count : Nat) → Prop
  | [], _, _ => True
  | item :: items, first, count =>
    if item.itemLength ≤ first then BytesLoad items (first - item.itemLength) count
    else PortionFits item first count ∧
      if item.isData ∧ first ≠ 0 then Recovers items first (count - (item.itemLength - first))
      else PortionsFit items (count - (item.itemLength - first))

theorem reads_from {rest : List BlobDataItem} (wellFormed : ∀ item ∈ rest, item.WellFormed)
    {k : Nat} (left : items.drop k = rest) (closed : h.fileOpened = none) (first : Nat)
    (total : h.totalRemainingSize = count) (more : 0 < count) :
    Reads items split { h with
        readItemCount := (skipItems (rest.map fun item => (item.itemLength : Int)) k first).1
        currentItemReadSize := (skipItems (rest.map fun item => (item.itemLength : Int)) k first).2 }
      (((blobFrom k rest).drop first).take count) ↔ BytesLoad rest first count := by
  induction rest generalizing k first with
  | nil =>
    have past : items[k]? = none := by rw [← List.head?_drop, left]; rfl
    rw [reads_done (.inr past)]
    simp [blobFrom, BytesLoad]
  | cons item rest ih =>
    have left' : items.drop (k + 1) = rest := by
      rw [← List.drop_drop, left]
      rfl
    have wellFormed' : ∀ item ∈ rest, item.WellFormed :=
      fun item member => wellFormed item (List.mem_cons_of_mem _ member)
    rw [List.map_cons, skipItems, BytesLoad]
    by_cases skips : item.itemLength ≤ first
    · have next := ih wellFormed' left' (first - item.itemLength)
      rw [if_pos (by omega), if_pos skips]
      rw [blobFrom, List.drop_append, length_bytesAt,
        List.drop_of_length_le (by rw [length_bytesAt]; exact skips), List.nil_append]
      rw [Int.ofNat_sub skips] at next
      exact next
    · rw [if_neg (by omega), if_neg skips]
      have portion := @reads_portion items split
        { h with readItemCount := k, currentItemReadSize := first } item first count rest closed left
        (wellFormed item List.mem_cons_self) rfl (by omega) total more
      apply portion.trans
      apply and_congr_right
      intro fits
      have total' : h.totalRemainingSize - (min (item.itemLength - first) count : Nat) =
          (count - (item.itemLength - first) : Nat) := by omega
      split_ifs with stale
      · apply reads_recovers wellFormed' left' rfl _ (by omega) total'
        simp [behind, stale.1]
      · apply reads_portions wellFormed' left' rfl _ total'
        simp only [behind]
        split_ifs with copied
        · have zero : first = 0 := by
            by_contra place
            exact stale ⟨copied, place⟩
          rw [zero]
          rfl
        · rfl

theorem reads_placed (wellFormed : ∀ item ∈ items, item.WellFormed) (range : ByteRange)
    {first : Int} (start : 0 ≤ first) (more : 0 < count) :
    Reads items split (placed (sized items range) first count)
        (((blob items).drop first.toNat).take count) ↔ BytesLoad items first.toNat count := by
  obtain ⟨first, rfl⟩ := Int.eq_ofNat_of_zero_le start
  exact @reads_from items split { sized items range with totalRemainingSize := count } count items
    wellFormed 0 rfl rfl first rfl more

end

/-- The ranges that an asynchronous load delivers, from the first position to the last, if one is
given. -/
def AsyncRangeLoads (items : List BlobDataItem) (first last : Int) : Prop :=
  (totalLength items : Int) ≤ int64Max ∧
  if last = -1 then BytesLoad items first.toNat (totalLength items - first.toNat)
  else last - first + 1 ≤ int64Max ∧
    BytesLoad items first.toNat (min (totalLength items) (last - first + 1).toNat)

theorem load_async_iff (wellFormed : ∀ item ∈ items, item.WellFormed) {first last : Int}
    (start : 0 ≤ first) (below : first < totalLength items) (order : last = -1 ∨ first ≤ last) :
    (∃ turns, loadResourceAsynchronously items ⟨first, last, -1⟩ split turns =
        some (requested ⟨first, last, -1⟩ (blob items))) ↔ AsyncRangeLoads items first last := by
  have size : (blob items).length = totalLength items := length_blobFrom 0 items
  have most : int64Max = 9223372036854775807 := by decide
  have least : int64Min = -9223372036854775808 := by decide
  have fails : getSizeForNext items (create ⟨first, last, -1⟩) = none →
      ¬ ∃ turns, loadResourceAsynchronously items ⟨first, last, -1⟩ split turns =
        some (requested ⟨first, last, -1⟩ (blob items)) := by
    rintro failed ⟨turns, loaded⟩
    simp [loadResourceAsynchronously, failed] at loaded
  have given : first ≠ -1 := by omega
  unfold AsyncRangeLoads
  by_cases fits : (totalLength items : Int) ≤ int64Max
  · have counted := getSizeForNext_create items ⟨first, last, -1⟩
    rw [if_pos fits] at counted
    by_cases open_ : last = -1
    · subst open_
      have asked : requested ⟨first, -1, -1⟩ (blob items) =
          ((blob items).drop first.toNat).take (totalLength items - first.toNat) := by
        rw [List.take_of_length_le (by rw [List.length_drop, size])]
        simp [requested, given]
      have sought : (sized items ⟨first, -1, -1⟩).seek = some (placed (sized items ⟨first, -1, -1⟩)
          first (totalLength items - first.toNat : Nat)) := by
        rw [seek_open rfl start rfl]
        have left : (totalLength items : Int) - first = (totalLength items - first.toNat : Nat) := by
          omega
        change (checked ((totalLength items : Int) - first)).map (placed _ first) = _
        rw [checked_eq (by omega) (by omega), Option.map_some, left]
      rw [load_iff_reads (counted.trans sought), asked, reads_placed wellFormed _ start (by omega)]
      simp [fits]
    · have asked : requested ⟨first, last, -1⟩ (blob items) = ((blob items).drop first.toNat).take
          (min (totalLength items) (last - first + 1).toNat) := by
        have clipped : requested ⟨first, last, -1⟩ (blob items) =
            ((blob items).drop first.toNat).take (last - first + 1).toNat := by
          simp [requested, given, open_]
        rw [clipped, ← List.take_take]
        exact (List.take_of_length_le (by rw [List.length_take, List.length_drop, size]; omega)).symm
      have sought := @seek_pair (sized items ⟨first, last, -1⟩) rfl start open_
      change _ = (checked (last - first + 1)).map _ at sought
      rw [if_neg open_]
      by_cases short : last - first + 1 ≤ int64Max
      · rw [checked_eq (by omega) short, Option.map_some] at sought
        have total : min (totalLength items : Int) (last - first + 1) =
            (min (totalLength items) (last - first + 1).toNat : Nat) := by omega
        change _ = some (placed _ first (min (totalLength items : Int) (last - first + 1))) at sought
        rw [total] at sought
        rw [load_iff_reads (counted.trans sought), asked, reads_placed wellFormed _ start (by omega)]
        simp [fits, short]
      · have overflow : checked (last - first + 1) = none := if_neg (by omega)
        rw [overflow] at sought
        exact iff_of_false (fails (counted.trans sought)) (fun all => short all.2.1)
  · have counted := getSizeForNext_create items ⟨first, last, -1⟩
    rw [if_neg fits] at counted
    exact iff_of_false (fails counted) (fun all => fits all.1)

/-- More turns change nothing once all is read. -/
theorem runAsync_more {turns turns' : Nat} {waiting : Waiting} (later : turns ≤ turns')
    (ran : runAsync items split turns h waiting = some data) :
    runAsync items split turns' h waiting = some data := by
  induction turns generalizing turns' h waiting data with
  | zero =>
    cases waiting with
    | nothing =>
      cases ran
      cases turns' <;> rfl
    | didOpen => cases ran
    | didRead => cases ran
  | succ turns ih =>
    obtain ⟨turns', rfl⟩ := Nat.exists_eq_add_one_of_ne_zero (by omega : turns' ≠ 0)
    cases waiting with
    | nothing =>
      cases ran
      rfl
    | didOpen =>
      simp only [runAsync, Option.bind_eq_bind, Option.bind_eq_some_iff, Prod.exists] at ran ⊢
      obtain ⟨bytes, h', waiting', read, rest, ran, same⟩ := ran
      exact ⟨bytes, h', waiting', read, rest, ih (by omega) ran, same⟩
    | didRead =>
      simp only [runAsync, Option.bind_eq_bind, Option.bind_eq_some_iff, Prod.exists] at ran ⊢
      obtain ⟨bytes, h', waiting', read, rest, ran, same⟩ := ran
      exact ⟨bytes, h', waiting', read, rest, ih (by omega) ran, same⟩

theorem load_async_more {range : ByteRange} {turns turns' : Nat} (later : turns ≤ turns')
    (loaded : loadResourceAsynchronously items range split turns = some data) :
    loadResourceAsynchronously items range split turns' = some data := by
  simp only [loadResourceAsynchronously, Option.bind_eq_bind, Option.bind_eq_some_iff,
    Prod.exists] at loaded ⊢
  obtain ⟨h', started, bytes, h'', waiting, read, rest, ran, same⟩ := loaded
  exact ⟨h', started, bytes, h'', waiting, read, rest, runAsync_more later ran, same⟩

end

/-- After some turns the load has ended and the client has got the bytes that were asked for. -/
def AsyncServed (items : List BlobDataItem) (range : ByteRange) (split : Address → Nat)
    (contents : Address → UInt8) : Prop :=
  ∃ turns data, loadResourceAsynchronously items range split turns = some data ∧
    data.map contents = (requested range (blob items)).map contents

theorem async_served_iff (items : List BlobDataItem) (range : ByteRange) (split : Address → Nat) :
    (∀ contents, AsyncServed items range split contents) ↔
      ∃ turns, loadResourceAsynchronously items range split turns =
        some (requested range (blob items)) := by
  constructor
  · intro served
    obtain ⟨turns, data, loaded, -⟩ := served fun _ => 0
    have same : data = requested range (blob items) := by
      apply map_eq_iff.mp
      intro contents
      obtain ⟨turns', data', loaded', same⟩ := served contents
      have first := load_async_more (Nat.le_max_left turns turns') loaded
      have second := load_async_more (Nat.le_max_right turns turns') loaded'
      rw [first] at second
      cases second
      exact same
    exact ⟨turns, same ▸ loaded⟩
  · rintro ⟨turns, loaded⟩ contents
    exact ⟨turns, _, loaded, rfl⟩

/-- **An asynchronous load serves its range**, however the reads of files are split, if and only if
the range can be read item by item.

`readDataAsync` resets `m_currentItemReadSize` only after `consumeData`, which has gone on with the
next items by then: they are begun at the offset of the first. -/
theorem async_loads_range_iff (icu : Icu) {items : List BlobDataItem}
    (wellFormed : ∀ item ∈ items, item.WellFormed) {header : List UChar} {first last : Int}
    (accepted : requestRange icu header = some ⟨first, last, -1⟩) (start : 0 ≤ first)
    (below : first < totalLength items) :
    (∀ split contents, AsyncServed items ⟨first, last, -1⟩ split contents) ↔
      AsyncRangeLoads items first last := by
  have order : last = -1 ∨ first ≤ last := by
    cases requestRange_accepted accepted with
    | suffix => omega
    | bytes _ _ order _ => exact order
  simp only [async_served_iff, load_async_iff wellFormed start below order, forall_const]

theorem async_loads_range_across :
    requestRange Icu.forASCII (ascii "bytes=0-3") = some ⟨0, 3, -1⟩ ∧
    ∀ split contents,
      AsyncServed [.data 4 1 3, .file 2 0 none] ⟨0, 3, -1⟩ split contents := by
  have accepted : requestRange Icu.forASCII (ascii "bytes=0-3") = some ⟨0, 3, -1⟩ := by
    decide
  have loads : AsyncRangeLoads [.data 4 1 3, .file 2 0 none] 0 3 := by
    refine ⟨by decide, by decide, ?_⟩
    simp [BytesLoad, PortionsFit, PortionFits, totalLength, BlobDataItem.itemLength,
      BlobDataItem.isData, intMax]
  exact ⟨accepted, (async_loads_range_iff Icu.forASCII (by decide) accepted (by decide)
    (by decide)).mpr loads⟩

/-- The second and the third of three bytes: the second item is begun at its second byte. -/
theorem second_item_not_served :
    requestRange Icu.forASCII (ascii "bytes=1-") = some ⟨1, -1, -1⟩ ∧
    ¬ ∀ split contents,
      AsyncServed [.data 2 0 2, .data 1 0 1] ⟨1, -1, -1⟩ split contents := by
  have accepted : requestRange Icu.forASCII (ascii "bytes=1-") = some ⟨1, -1, -1⟩ := by
    decide
  refine ⟨accepted, ?_⟩
  intro served
  have loaded := (async_served_iff _ _ _).mp (served fun _ => 1)
  rw [load_async_iff (by decide) (by decide) (by decide) (.inl rfl)] at loaded
  simp [AsyncRangeLoads, BytesLoad, Recovers, totalLength, BlobDataItem.itemLength,
    BlobDataItem.isData] at loaded

end NetRider.Blob
