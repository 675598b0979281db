import Mathlib
import NetRider.Blob.BlobResourceHandle

/-!
# Synchronous loads of a range

`seek` is called once for every item of the blob, and some ranges do not survive a second call.
`RangeLoads` says which ranges are loaded rightly.
-/

namespace NetRider.Blob

open NetRider.Wtf BlobResourceHandle

/-! ## Addresses -/

def totalLength (items : List BlobDataItem) : Nat := (items.map BlobDataItem.itemLength).sum

theorem length_bytesAt (item position count : Nat) : (bytesAt item position count).length = count := by
  simp [bytesAt]

theorem length_blobFrom (first : Nat) (items : List BlobDataItem) :
    (blobFrom first items).length = totalLength items := by
  induction items generalizing first with
  | nil => rfl
  | cons item items ih => simp [blobFrom, length_bytesAt, ih, totalLength]

theorem bytesAt_append (item position count count' : Nat) :
    bytesAt item position (count + count') =
      bytesAt item position count ++ bytesAt item (position + count) count' := by
  rw [bytesAt, bytesAt, bytesAt, ← List.map_append, List.range'_append_1]

theorem take_bytesAt {item position count n : Nat} (within : n ≤ count) :
    (bytesAt item position count).take n = bytesAt item position n := by
  obtain ⟨rest, rfl⟩ := Nat.exists_eq_add_of_le within
  rw [bytesAt_append, List.take_left' (length_bytesAt _ _ _)]

theorem drop_bytesAt {item position count n : Nat} (within : n ≤ count) :
    (bytesAt item position count).drop n = bytesAt item (position + n) (count - n) := by
  obtain ⟨rest, rfl⟩ := Nat.exists_eq_add_of_le within
  rw [bytesAt_append, List.drop_left' (length_bytesAt _ _ _), Nat.add_sub_cancel_left]

/-- The loaded bytes are those that were asked for if and only if they are read at the same
places. -/
theorem map_eq_iff {l m : List Address} :
    (∀ contents : Address → UInt8, l.map contents = m.map contents) ↔ l = m := by
  constructor
  · intro same
    apply List.ext_getElem?
    intro n
    have here := congrArg (·[n]?) (same fun address => if some address = l[n]? then 1 else 0)
    simp only [List.getElem?_map] at here
    cases first : l[n]? with
    | none =>
      cases second : m[n]? with
      | none => rfl
      | some b => simp [first, second] at here
    | some a =>
      cases second : m[n]? with
      | none => simp [first, second] at here
      | some b =>
        by_cases equal : b = a
        · rw [equal]
        · simp [first, second, equal] at here
  · rintro rfl contents
    rfl

theorem castInt_eq {value : Int} (least : 0 ≤ value) (most : value ≤ intMax) :
    castInt value = value := by
  rw [intMax] at most
  exact Int.bmod_eq_of_le (by omega) (by omega)

/-! ## Reading -/

/-- The bytes that the handle reads if nothing stops it. -/
def pending (items : List BlobDataItem) (h : BlobResourceHandle) : List Address :=
  match h.fileOpened with
  | some stream => bytesAt h.readItemCount stream.position stream.remaining.toNat ++
      blobFrom (h.readItemCount + 1) (items.drop (h.readItemCount + 1))
  | none => (blobFrom h.readItemCount (items.drop h.readItemCount)).drop h.currentItemReadSize.toNat

/-- The handle is in the blob: in an item, or in an open file of which no more is to be read than
its slice and the range have. -/
def Ready (items : List BlobDataItem) (h : BlobResourceHandle) : Prop :=
  match h.fileOpened with
  | some stream => h.currentItemReadSize = 0 ∧ 0 ≤ stream.remaining ∧
      stream.remaining ≤ h.totalRemainingSize ∧
      ∃ size offset length, items[h.readItemCount]? = some (.file size offset length) ∧
        stream.position + stream.remaining.toNat ≤ size
  | none => 0 ≤ h.currentItemReadSize ∧ ∀ item, items[h.readItemCount]? = some item →
      h.currentItemReadSize ≤ item.itemLength

theorem drop_eq_cons {items : List BlobDataItem} {n : Nat} {item : BlobDataItem}
    (found : items[n]? = some item) : items.drop n = item :: items.drop (n + 1) := by
  obtain ⟨within, rfl⟩ := List.getElem?_eq_some_iff.mp found
  exact List.drop_eq_getElem_cons within

/-- What is pending in an item. -/
theorem pending_item {items : List BlobDataItem} {h : BlobResourceHandle} {item : BlobDataItem}
    (closed : h.fileOpened = none) (found : items[h.readItemCount]? = some item)
    (start : 0 ≤ h.currentItemReadSize) (within : h.currentItemReadSize ≤ item.itemLength) :
    pending items h =
      bytesAt h.readItemCount (item.offset + h.currentItemReadSize.toNat)
        (item.itemLength - h.currentItemReadSize.toNat) ++
      blobFrom (h.readItemCount + 1) (items.drop (h.readItemCount + 1)) := by
  have inItem : h.currentItemReadSize.toNat ≤ item.itemLength := by omega
  simp only [pending, closed]
  rw [drop_eq_cons found, blobFrom, List.drop_append_of_le_length (by rwa [length_bytesAt]),
    drop_bytesAt inItem]

theorem pending_start {items : List BlobDataItem} {h : BlobResourceHandle}
    (closed : h.fileOpened = none) (start : h.currentItemReadSize = 0) :
    pending items h = blobFrom h.readItemCount (items.drop h.readItemCount) := by
  simp [pending, closed, start]

theorem pending_open {items : List BlobDataItem} {h : BlobResourceHandle} {stream : FileStream}
    (opened : h.fileOpened = some stream) :
    pending items h = bytesAt h.readItemCount stream.position stream.remaining.toNat ++
      blobFrom (h.readItemCount + 1) (items.drop (h.readItemCount + 1)) := by
  simp only [pending, opened]

/-- One round of the loop takes bytes from what is pending. -/
structure Round (items : List BlobDataItem) (h h' : BlobResourceHandle) (remaining : Nat)
    (bytes : List Address) : Prop where
  ready : Ready items h'
  fits : bytes.length ≤ remaining
  left : h'.totalRemainingSize = (remaining - bytes.length : Nat)
  taken : (pending items h).take remaining =
    bytes ++ (pending items h').take (remaining - bytes.length)
  enough : remaining - bytes.length ≤ (pending items h').length
  progress : remaining - bytes.length + (items.length - h'.readItemCount) <
    remaining + (items.length - h.readItemCount)

theorem readDataSync_round {items : List BlobDataItem} {h : BlobResourceHandle}
    {size offset length remaining : Nat} (closed : h.fileOpened = none)
    (found : items[h.readItemCount]? = some (.data size offset length))
    (wellFormed : offset + length ≤ size) (start : 0 ≤ h.currentItemReadSize)
    (within : h.currentItemReadSize ≤ length) (total : h.totalRemainingSize = remaining)
    (more : 0 < remaining) (enough : remaining ≤ (pending items h).length) :
    ∃ bytes h', h.readDataSync size offset length remaining = some (bytes, h') ∧
      Round items h h' remaining bytes := by
  have waiting := pending_item closed found start within
  obtain ⟨inside, -⟩ := List.getElem?_eq_some_iff.mp found
  generalize tail : blobFrom (h.readItemCount + 1) (items.drop (h.readItemCount + 1)) = rest at waiting
  obtain ⟨c, current⟩ := Int.eq_ofNat_of_zero_le start
  simp only [BlobDataItem.offset, BlobDataItem.itemLength, current, Int.toNat_natCast] at waiting within
  rw [waiting, List.length_append, length_bytesAt] at enough
  have position : ((offset : Int) + c).toNat = offset + c := by omega
  unfold readDataSync
  simp only [current, total, position]
  by_cases whole : length - c ≤ remaining
  · -- the rest of the item
    have count : (if (remaining : Int) > length - c then (length : Int) - c else remaining) =
        ((length - c : Nat) : Int) := by
      split_ifs <;> omega
    have count' : ¬ ((length - c : Nat) : Int) > remaining := by omega
    have copied : 0 ≤ ((length - c : Nat) : Int) ∧ (((length - c : Nat) : Int) = 0 ∨
        ((offset : Int) ≤ offset + c ∧
          (offset : Int) + c + (length - c : Nat) ≤ offset + length ∧ offset + length ≤ size)) := by
      omega
    have ended : (c : Int) + (length - c : Nat) = length := by omega
    rw [count, if_neg count', if_pos copied, if_pos ended]
    refine ⟨_, _, rfl, ?_⟩
    simp only [Int.toNat_natCast]
    have next := @pending_start items { h with
      totalRemainingSize := remaining - ((length - c : Nat) : Int)
      currentItemReadSize := 0
      readItemCount := h.readItemCount + 1 } closed rfl
    rw [tail] at next
    constructor
    · simp [Ready, closed]
    · rwa [length_bytesAt]
    · rw [length_bytesAt]
      simp only
      omega
    · rw [waiting, next, length_bytesAt, List.take_append, length_bytesAt,
        List.take_of_length_le (by rwa [length_bytesAt])]
    · rw [next, length_bytesAt]
      omega
    · rw [length_bytesAt]
      simp only
      omega
  · -- the range ends in the item
    have count : (if (remaining : Int) > length - c then (length : Int) - c else remaining) =
        (remaining : Int) := by
      split_ifs <;> omega
    have count' : ¬ (remaining : Int) > remaining := by omega
    have copied : 0 ≤ (remaining : Int) ∧ ((remaining : Int) = 0 ∨ ((offset : Int) ≤ offset + c ∧
        (offset : Int) + c + remaining ≤ offset + length ∧ offset + length ≤ size)) := by
      omega
    have ended : ¬ (c : Int) + remaining = length := by omega
    rw [count, if_neg count', if_pos copied, if_neg ended]
    refine ⟨_, _, rfl, ?_⟩
    simp only [Int.toNat_natCast]
    constructor
    · simp only [Ready, closed, found]
      refine ⟨by omega, ?_⟩
      rintro item ⟨⟩
      simp only [BlobDataItem.itemLength]
      omega
    · rw [length_bytesAt]
    · rw [length_bytesAt]
      simp
    · rw [waiting, length_bytesAt, Nat.sub_self, List.take_zero, List.append_nil,
        List.take_append_of_le_length (by rw [length_bytesAt]; omega), take_bytesAt (by omega)]
    · simp [length_bytesAt]
    · rw [length_bytesAt]
      simp only
      omega

/-- Opening a file does not change what is read. -/
theorem openFileSync_ready {items : List BlobDataItem} {h : BlobResourceHandle}
    {size offset : Nat} {length : Option Nat} {remaining : Nat} (ready : Ready items h)
    (found : items[h.readItemCount]? = some (.file size offset length))
    (wellFormed : BlobDataItem.WellFormed (.file size offset length))
    (total : h.totalRemainingSize = remaining) (enough : remaining ≤ (pending items h).length) :
    ∃ stream, h.openFileSync (.file size offset length) =
        { h with fileOpened := some stream, currentItemReadSize := 0 } ∧
      Ready items (h.openFileSync (.file size offset length)) ∧
      (pending items h).take remaining =
        (pending items (h.openFileSync (.file size offset length))).take remaining ∧
      remaining ≤ (pending items (h.openFileSync (.file size offset length))).length := by
  cases opened : h.fileOpened with
  | some stream =>
    have same : h.openFileSync (.file size offset length) = h := by simp [openFileSync, opened]
    have start : h.currentItemReadSize = 0 := by
      simp only [Ready, opened] at ready
      exact ready.1
    rw [same]
    refine ⟨stream, ?_, ready, rfl, enough⟩
    rw [← opened, ← start]
  | none =>
    have slice : offset + (BlobDataItem.file size offset length).itemLength ≤ size := by
      cases length with
      | none =>
        simp only [BlobDataItem.WellFormed] at wellFormed
        simp [BlobDataItem.itemLength, wellFormed]
      | some length => exact wellFormed
    simp only [Ready, opened] at ready
    obtain ⟨start, within⟩ := ready
    have within := within _ found
    have waiting := pending_item opened found start within
    generalize tail : blobFrom (h.readItemCount + 1) (items.drop (h.readItemCount + 1)) = rest
      at waiting
    generalize hlen : (BlobDataItem.file size offset length).itemLength = len at slice within waiting
    obtain ⟨c, current⟩ := Int.eq_ofNat_of_zero_le start
    simp only [BlobDataItem.offset, current, Int.toNat_natCast] at waiting within
    rw [waiting, List.length_append, length_bytesAt] at enough
    have opens : h.openFileSync (.file size offset length) = { h with
        fileOpened := some ⟨offset + c, (min (len - c) remaining : Nat)⟩
        currentItemReadSize := 0 } := by
      have stream : FileStream.openForRead (offset + c) (if (len : Int) - c > remaining then remaining
          else len - c) = ⟨offset + c, (min (len - c) remaining : Nat)⟩ := by
        simp only [FileStream.openForRead, FileStream.mk.injEq]
        constructor
        · split_ifs <;> omega
        · split_ifs <;> omega
      simp only [openFileSync, opened, hlen, current, total, openFile, BlobDataItem.offset, stream]
    rw [opens]
    refine ⟨_, rfl, ?_, ?_, ?_⟩
    · simp only [Ready]
      exact ⟨trivial, by omega, by omega, size, offset, length, found, by omega⟩
    · rw [waiting, pending_open rfl]
      simp only [Int.toNat_natCast, tail]
      by_cases whole : len - c ≤ remaining
      · rw [Nat.min_eq_left whole]
      · rw [Nat.min_eq_right (by omega), List.take_append_of_le_length (by rw [length_bytesAt]; omega),
          List.take_append_of_le_length (by rw [length_bytesAt]), take_bytesAt (by omega),
          take_bytesAt le_rfl]
    · rw [pending_open rfl]
      simp only [Int.toNat_natCast, tail, List.length_append, length_bytesAt]
      omega

theorem readFileSync_round {items : List BlobDataItem} {h : BlobResourceHandle}
    {size offset : Nat} {length : Option Nat} {remaining : Nat} (ready : Ready items h)
    (found : items[h.readItemCount]? = some (.file size offset length))
    (wellFormed : BlobDataItem.WellFormed (.file size offset length))
    (total : h.totalRemainingSize = remaining) (more : 0 < remaining)
    (fits : (remaining : Int) ≤ intMax) (enough : remaining ≤ (pending items h).length) :
    ∃ bytes h', h.readFileSync (.file size offset length) remaining = some (bytes, h') ∧
      Round items h h' remaining bytes := by
  obtain ⟨stream, opened, ready', same, enough'⟩ :=
    openFileSync_ready ready found wellFormed total enough
  obtain ⟨inside, -⟩ := List.getElem?_eq_some_iff.mp found
  rw [opened] at ready' same enough'
  simp only [Ready] at ready'
  obtain ⟨-, least, most, size', offset', length', found', inFile⟩ := ready'
  obtain ⟨rfl, rfl, rfl⟩ : size = size' ∧ offset = offset' ∧ length = length' := by
    simpa using found.symm.trans found'
  have waiting := @pending_open items { h with fileOpened := some stream, currentItemReadSize := 0 }
    stream rfl
  rw [waiting] at same enough'
  generalize tail : blobFrom (h.readItemCount + 1) (items.drop (h.readItemCount + 1)) = rest
    at same enough'
  obtain ⟨left, hleft⟩ := Int.eq_ofNat_of_zero_le least
  rw [hleft, Int.toNat_natCast] at same enough' inFile
  rw [List.length_append, length_bytesAt] at enough'
  have count : min (stream.bytesToRead remaining).toNat (size - stream.position) = left := by
    unfold FileStream.bytesToRead
    rw [hleft]
    split_ifs with less
    · rw [castInt_eq (by omega) (by omega)]
      omega
    · omega
  unfold readFileSync
  simp only [opened, BlobDataItem.size, count]
  by_cases ended : left = 0
  · rw [if_pos ended]
    refine ⟨_, _, rfl, ?_⟩
    subst ended
    have next := @pending_start items { h with
      fileOpened := none
      readItemCount := h.readItemCount + 1
      currentItemReadSize := 0 } rfl rfl
    constructor
    · simp [Ready]
    · simp
    · simpa using total
    · rw [same, next, tail]
      simp [bytesAt]
    · rw [next, tail]
      simpa using enough'
    · simp only [List.length_nil]
      omega
  · rw [if_neg ended]
    refine ⟨_, _, rfl, ?_⟩
    constructor
    · simp only [Ready, FileStream.advance, hleft]
      refine ⟨trivial, by omega, by omega, size, offset, length, found, by omega⟩
    · rw [length_bytesAt]
      omega
    · rw [length_bytesAt]
      simp only
      omega
    · rw [same, pending_open rfl]
      simp only [FileStream.advance, hleft, tail, length_bytesAt]
      rw [List.take_append, length_bytesAt, List.take_of_length_le (by rw [length_bytesAt]; omega)]
      simp [bytesAt]
    · rw [pending_open rfl]
      simp only [FileStream.advance, hleft, tail, length_bytesAt, List.length_append]
      omega
    · rw [length_bytesAt]
      simp only
      omega

theorem found_of_pending {items : List BlobDataItem} {h : BlobResourceHandle}
    (ready : Ready items h) (more : 0 < (pending items h).length) :
    ∃ item, items[h.readItemCount]? = some item := by
  cases opened : h.fileOpened with
  | some stream =>
    simp only [Ready, opened] at ready
    obtain ⟨-, -, -, size, offset, length, found, -⟩ := ready
    exact ⟨_, found⟩
  | none =>
    cases found : items[h.readItemCount]? with
    | some item => exact ⟨item, rfl⟩
    | none =>
      have behind := List.drop_eq_nil_of_le (List.getElem?_eq_none_iff.mp found)
      simp [pending, opened, behind, blobFrom] at more

/-- **Reading.** From a handle that is in the blob, the loop reads what is pending. -/
theorem readSync_reads {items : List BlobDataItem} {h : BlobResourceHandle} {remaining rounds : Nat}
    (wellFormed : ∀ item ∈ items, item.WellFormed) (ready : Ready items h)
    (total : h.totalRemainingSize = remaining) (fits : (remaining : Int) ≤ intMax)
    (enough : remaining ≤ (pending items h).length)
    (time : remaining + (items.length - h.readItemCount) < rounds) :
    readSync items rounds h remaining = some ((pending items h).take remaining) := by
  induction rounds generalizing h remaining with
  | zero => omega
  | succ rounds ih =>
    rw [readSync]
    by_cases done : remaining = 0
    · simp [done]
    · have notZero : ¬ (remaining = 0 ∨ h.totalRemainingSize = 0) := by omega
      have more : 0 < remaining := by omega
      obtain ⟨item, found⟩ := found_of_pending ready (by omega)
      have ok := wellFormed item (List.mem_of_getElem? found)
      have round : ∃ bytes h', h.readItemSync item remaining = some (bytes, h') ∧
          Round items h h' remaining bytes := by
        cases item with
        | data size offset length =>
          have closed : h.fileOpened = none := by
            cases opened : h.fileOpened with
            | none => rfl
            | some stream =>
              simp only [Ready, opened, found] at ready
              simp at ready
          simp only [Ready, closed] at ready
          exact readDataSync_round closed found ok ready.1 (ready.2 _ found) total more enough
        | file size offset length => exact readFileSync_round ready found ok total more fits enough
      obtain ⟨bytes, h', read, round⟩ := round
      have rest := ih round.ready round.left (by omega) round.enough
        (by have := round.progress; omega)
      simp only [if_neg notZero, found, read, round.taken, Option.bind_eq_bind, Option.bind_some, rest]

/-! ## The rounds are enough -/

theorem readItemSync_progress {h h' : BlobResourceHandle} {item : BlobDataItem} {remaining : Nat}
    {bytes : List Address} (more : 0 < remaining) (left : h.totalRemainingSize ≠ 0)
    (read : h.readItemSync item remaining = some (bytes, h')) :
    (h'.readItemCount = h.readItemCount ∧ 0 < bytes.length) ∨
      h'.readItemCount = h.readItemCount + 1 := by
  cases item with
  | data size offset length =>
    simp only [readItemSync, readDataSync] at read
    generalize asked : (if _ > h.totalRemainingSize then h.totalRemainingSize else _ : Int) =
      bytesToRead at read
    split_ifs at read with fits last
    · cases read
      exact .inr rfl
    · cases read
      have some_ : 0 < bytesToRead := by
        split_ifs at asked <;> omega
      refine .inl ⟨rfl, ?_⟩
      rw [length_bytesAt]
      omega
  | file size offset length =>
    have same : (h.openFileSync (.file size offset length)).readItemCount = h.readItemCount := by
      unfold openFileSync
      split <;> rfl
    simp only [readItemSync, readFileSync] at read
    split at read
    · cases read
    · split_ifs at read with last
      · cases read
        exact .inr (congrArg (· + 1) same)
      · cases read
        refine .inl ⟨same, ?_⟩
        rw [length_bytesAt]
        omega

/-- The loop ends by itself: with more rounds it reads the same. -/
theorem readSync_rounds {items : List BlobDataItem} {h : BlobResourceHandle}
    {remaining rounds rounds' : Nat} (time : remaining + (items.length - h.readItemCount) < rounds)
    (time' : remaining + (items.length - h.readItemCount) < rounds') :
    readSync items rounds h remaining = readSync items rounds' h remaining := by
  induction rounds generalizing h remaining rounds' with
  | zero => omega
  | succ rounds ih =>
    obtain ⟨rounds', rfl⟩ := Nat.exists_eq_add_one_of_ne_zero (by omega : rounds' ≠ 0)
    rw [readSync, readSync]
    split_ifs with done
    · rfl
    · cases found : items[h.readItemCount]? with
      | none => rfl
      | some item =>
        cases read : h.readItemSync item remaining with
        | none => simp [read]
        | some result =>
          obtain ⟨bytes, h'⟩ := result
          have within := (List.getElem?_eq_some_iff.mp found).1
          have progress := readItemSync_progress (by omega) (by omega) read
          have same := @ih h' (remaining - bytes.length) rounds' (by omega) (by omega)
          simp only [read, Option.bind_eq_bind, Option.bind_some, same]

/-! ## Counting sizes -/

/-- The handle when all items have been counted. -/
def sized (items : List BlobDataItem) (range : ByteRange) : BlobResourceHandle :=
  { create range with
    totalRemainingSize := totalLength items
    itemLengthList := items.map fun item => (item.itemLength : Int)
    sizeItemCount := items.length }

theorem getSizeForNext_counted {items : List BlobDataItem} {h : BlobResourceHandle}
    (counted : h.sizeItemCount = items.length) : getSizeForNext items h = h.seek := by
  rw [getSizeForNext, dif_neg (by omega)]

theorem checked_eq_some {value result : Int} (h : checked value = some result) : result = value := by
  unfold checked at h
  split_ifs at h
  exact (Option.some.inj h).symm

theorem checked_eq {value : Int} (least : int64Min ≤ value) (most : value ≤ int64Max) :
    checked value = some value :=
  if_pos ⟨least, most⟩

theorem totalLength_append (items items' : List BlobDataItem) :
    totalLength (items ++ items') = totalLength items + totalLength items' := by
  simp [totalLength]

theorem getSizeForNext_from (items : List BlobDataItem) (range : ByteRange) (n : Nat)
    (within : n ≤ items.length) (counted : (totalLength (items.take n) : Int) ≤ int64Max) :
    getSizeForNext items { create range with
      totalRemainingSize := totalLength (items.take n)
      itemLengthList := (items.take n).map fun item => (item.itemLength : Int)
      sizeItemCount := n } =
        if (totalLength items : Int) ≤ int64Max then (sized items range).seek else none := by
  have least : int64Min = -9223372036854775808 := by decide
  induction h : items.length - n generalizing n with
  | zero =>
    obtain rfl : n = items.length := by omega
    rw [List.take_length] at counted
    rw [getSizeForNext_counted rfl, List.take_length, if_pos counted]
    rfl
  | succ left ih =>
    have less : n < items.length := by omega
    have more : totalLength (items.take (n + 1)) =
        totalLength (items.take n) + items[n].itemLength := by
      rw [List.take_succ_eq_append_getElem less, totalLength_append]
      simp [totalLength]
    have whole := totalLength_append (items.take (n + 1)) (items.drop (n + 1))
    rw [List.take_append_drop] at whole
    rw [getSizeForNext, dif_pos less]
    by_cases fits : (totalLength (items.take (n + 1)) : Int) ≤ int64Max
    · have next := ih (n + 1) (by omega) fits (by omega)
      rw [more, Int.natCast_add] at fits next
      dsimp only
      rw [checked_eq (by omega) fits]
      rw [List.take_succ_eq_append_getElem less, List.map_append] at next
      exact next
    · rw [if_neg (by omega)]
      rw [more, Int.natCast_add] at fits
      dsimp only
      rw [show checked _ = none from if_neg (by omega)]

theorem getSizeForNext_create (items : List BlobDataItem) (range : ByteRange) :
    getSizeForNext items (create range) =
      if (totalLength items : Int) ≤ int64Max then (sized items range).seek else none :=
  getSizeForNext_from items range 0 (Nat.zero_le _) (by rw [List.take_zero]; decide)

/-- `seek`, so many times. -/
def seekTimes : Nat → BlobResourceHandle → Option BlobResourceHandle
  | 0, h => some h
  | n + 1, h => h.seek.bind (seekTimes n)

theorem convertSuffix_counts {h h' : BlobResourceHandle} (converted : h.convertSuffix = some h') :
    h'.itemLengthList = h.itemLengthList ∧ h'.sizeItemCount = h.sizeItemCount := by
  unfold convertSuffix at converted
  split_ifs at converted with given
  · simp only [Option.bind_eq_bind, Option.bind_eq_some_iff, Option.some.injEq] at converted
    obtain ⟨_, -, _, -, _, -, rfl⟩ := converted
    exact ⟨rfl, rfl⟩
  · cases converted
    exact ⟨rfl, rfl⟩

theorem adjustSize_counts {h h' : BlobResourceHandle} (adjusted : h.adjustSize = some h') :
    h'.itemLengthList = h.itemLengthList ∧ h'.sizeItemCount = h.sizeItemCount := by
  unfold adjustSize at adjusted
  split_ifs at adjusted with given
  · simp only [Option.bind_eq_bind, Option.bind_eq_some_iff, Option.some.injEq] at adjusted
    obtain ⟨_, -, rfl⟩ := adjusted
    split_ifs
    · exact ⟨rfl, rfl⟩
    · exact ⟨rfl, rfl⟩
  · simp only [Option.bind_eq_bind, Option.bind_eq_some_iff, Option.some.injEq] at adjusted
    obtain ⟨_, -, rfl⟩ := adjusted
    exact ⟨rfl, rfl⟩

/-- `seek` does not change what was counted. -/
theorem seek_counts {h h' : BlobResourceHandle} (sought : h.seek = some h') :
    h'.itemLengthList = h.itemLengthList ∧ h'.sizeItemCount = h.sizeItemCount := by
  simp only [seek, Option.bind_eq_bind, Option.bind_eq_some_iff] at sought
  obtain ⟨h₁, converted, sought⟩ := sought
  obtain ⟨lengths, count⟩ := convertSuffix_counts converted
  split_ifs at sought with unspecified
  · cases sought
    exact ⟨lengths, count⟩
  · obtain ⟨lengths', count'⟩ := adjustSize_counts sought
    exact ⟨lengths'.trans lengths, count'.trans count⟩

theorem seekTimes_eq (items list : List BlobDataItem) {h : BlobResourceHandle}
    (counted : h.sizeItemCount = items.length) :
    list.foldlM (fun h _ => getSizeForNext items h) h = seekTimes list.length h := by
  induction list generalizing h with
  | nil => rfl
  | cons item list ih =>
    rw [List.foldlM_cons, getSizeForNext_counted counted]
    simp only [List.length_cons, seekTimes, Option.bind_eq_bind]
    cases sought : h.seek with
    | none => rfl
    | some h' => exact ih ((seek_counts sought).2.trans counted)

theorem startSync_eq {items : List BlobDataItem} (range : ByteRange) (nonempty : items ≠ [])
    (small : (totalLength items : Int) ≤ intMax) :
    startSync items range = seekTimes items.length (sized items range) := by
  have counted : (sized items range).sizeItemCount = items.length := rfl
  have first : getSizeForNext items (create range) = getSizeForNext items (sized items range) := by
    have bound : intMax ≤ int64Max := by decide
    rw [getSizeForNext_create, if_pos (by omega), getSizeForNext_counted counted]
  have key : ∀ list : List BlobDataItem, list ≠ [] →
      list.foldlM (fun h _ => getSizeForNext items h) (create range) =
        list.foldlM (fun h _ => getSizeForNext items h) (sized items range) := by
    intro list nonempty
    cases list with
    | nil => contradiction
    | cons item list => rw [List.foldlM_cons, List.foldlM_cons, first]
  rw [startSync, key items nonempty, seekTimes_eq items items counted]

/-! ## Seeking -/

/-- The handle at a place, as `seek` finds it. -/
def placed (h : BlobResourceHandle) (offset total : Int) : BlobResourceHandle :=
  { h with
    readItemCount := (skipItems h.itemLengthList 0 offset).1
    currentItemReadSize := (skipItems h.itemLengthList 0 offset).2
    totalRemainingSize := total }

theorem skipItems_place (items : List BlobDataItem) {k : Nat} (within : k ≤ items.length)
    (offset : Nat) :
    let place := skipItems ((items.drop k).map fun item => (item.itemLength : Int)) k offset
    0 ≤ place.2 ∧ (∀ item, items[place.1]? = some item → place.2 ≤ item.itemLength) ∧
    (blobFrom k (items.drop k)).drop offset =
      (blobFrom place.1 (items.drop place.1)).drop place.2.toNat := by
  induction h : items.length - k generalizing k offset with
  | zero =>
    obtain rfl : k = items.length := by omega
    simp [skipItems, blobFrom]
  | succ left ih =>
    have less : k < items.length := by omega
    rw [List.drop_eq_getElem_cons less, List.map_cons, skipItems]
    split_ifs with skipped
    · have next := ih (by omega : k + 1 ≤ items.length) (offset - items[k].itemLength) (by omega)
      have rest : (offset : Int) - items[k].itemLength =
          ((offset - items[k].itemLength : Nat) : Int) := by omega
      rw [rest]
      refine ⟨next.1, next.2.1, ?_⟩
      rw [← next.2.2, blobFrom, List.drop_append, length_bytesAt,
        List.drop_of_length_le (by rw [length_bytesAt]; omega), List.nil_append]
    · refine ⟨by omega, ?_, ?_⟩
      · intro item found
        obtain ⟨_, rfl⟩ := List.getElem?_eq_some_iff.mp found
        simp only at skipped ⊢
        omega
      · simp only [Int.toNat_natCast]
        rw [List.drop_eq_getElem_cons less]

/-- A place in the blob. -/
theorem placed_pending {items : List BlobDataItem} {h : BlobResourceHandle}
    (lengths : h.itemLengthList = items.map fun item => (item.itemLength : Int))
    (closed : h.fileOpened = none) (offset : Nat) (total : Int) :
    Ready items (placed h offset total) ∧
      pending items (placed h offset total) = (blob items).drop offset := by
  obtain ⟨start, within, rest⟩ := skipItems_place items (Nat.zero_le _) offset
  rw [List.drop_zero, ← lengths] at start within rest
  constructor
  · simp only [Ready, placed, closed]
    exact ⟨start, within⟩
  · simp only [pending, placed, closed]
    exact rest.symm

theorem seek_eq {h h' : BlobResourceHandle} (converted : h.convertSuffix = some h') :
    h.seek = if h'.rangeOffset = -1 then some h'
      else (placed h' h'.rangeOffset h'.totalRemainingSize).adjustSize := by
  simp only [seek, converted, positionNotSpecified, Option.bind_eq_bind, Option.bind_some]
  rfl

theorem convertSuffix_none {h : BlobResourceHandle} (suffix : h.rangeSuffixLength = -1) :
    h.convertSuffix = some h :=
  if_neg fun given => given suffix

theorem adjustSize_last {h : BlobResourceHandle} (last : h.rangeEnd ≠ -1) :
    h.adjustSize = (checked (h.rangeEnd - h.rangeOffset + 1)).map fun size =>
      { h with totalRemainingSize := min h.totalRemainingSize size } := by
  rw [adjustSize, positionNotSpecified, if_pos last]
  cases checked (h.rangeEnd - h.rangeOffset + 1) with
  | none => rfl
  | some size =>
    simp only [Option.bind_eq_bind, Option.bind_some, Option.map_some]
    split_ifs with large
    · rw [min_eq_right (by omega)]
    · rw [min_eq_left (by omega)]

theorem adjustSize_open {h : BlobResourceHandle} (last : h.rangeEnd = -1) :
    h.adjustSize = (checked (h.totalRemainingSize - h.rangeOffset)).map fun total =>
      { h with totalRemainingSize := total } := by
  rw [adjustSize, positionNotSpecified, if_neg fun given => given last]
  cases checked (h.totalRemainingSize - h.rangeOffset) with
  | none => rfl
  | some total => rfl

/-- A range with a first and a last byte. -/
theorem seek_pair {h : BlobResourceHandle} (suffix : h.rangeSuffixLength = -1)
    (start : 0 ≤ h.rangeOffset) (last : h.rangeEnd ≠ -1) :
    h.seek = (checked (h.rangeEnd - h.rangeOffset + 1)).map fun size =>
      placed h h.rangeOffset (min h.totalRemainingSize size) := by
  have last' : (placed h h.rangeOffset h.totalRemainingSize).rangeEnd ≠ -1 := last
  rw [seek_eq (convertSuffix_none suffix), if_neg (by omega), adjustSize_last last']
  rfl

/-- A range with a first byte only. -/
theorem seek_open {h : BlobResourceHandle} (suffix : h.rangeSuffixLength = -1)
    (start : 0 ≤ h.rangeOffset) (last : h.rangeEnd = -1) :
    h.seek = (checked (h.totalRemainingSize - h.rangeOffset)).map (placed h h.rangeOffset) := by
  have last' : (placed h h.rangeOffset h.totalRemainingSize).rangeEnd = -1 := last
  rw [seek_eq (convertSuffix_none suffix), if_neg (by omega), adjustSize_open last']
  rfl

/-- A range from the end: what is left to read is taken for the size of the blob. -/
def fromEnd (h : BlobResourceHandle) : BlobResourceHandle :=
  { h with
    rangeOffset := h.totalRemainingSize - h.rangeSuffixLength
    rangeEnd := h.totalRemainingSize - 1 }

theorem convertSuffix_some {h h' : BlobResourceHandle} (suffix : h.rangeSuffixLength ≠ -1)
    (converted : h.convertSuffix = some h') : h' = fromEnd h := by
  rw [convertSuffix, positionNotSpecified, if_pos suffix] at converted
  simp only [Option.bind_eq_bind, Option.bind_eq_some_iff, Option.some.injEq] at converted
  obtain ⟨offset, hoffset, past, hpast, last, hlast, rfl⟩ := converted
  obtain rfl := checked_eq_some hoffset
  obtain rfl := checked_eq_some hpast
  obtain rfl := checked_eq_some hlast
  simp [fromEnd]

/-- What `seek` comes to. -/
def suffixPlaced (h : BlobResourceHandle) : BlobResourceHandle :=
  if h.totalRemainingSize - h.rangeSuffixLength = -1 then fromEnd h
  else placed (fromEnd h) (fromEnd h).rangeOffset
    (if h.totalRemainingSize = 0 then h.rangeSuffixLength
      else min h.totalRemainingSize h.rangeSuffixLength)

theorem adjustSize_fromEnd {h h' : BlobResourceHandle}
    (adjusted : (placed (fromEnd h) (fromEnd h).rangeOffset h.totalRemainingSize).adjustSize =
      some h') :
    h' = placed (fromEnd h) (fromEnd h).rangeOffset
      (if h.totalRemainingSize = 0 then h.rangeSuffixLength
        else min h.totalRemainingSize h.rangeSuffixLength) := by
  by_cases last : h.totalRemainingSize - 1 = -1
  · have open_ : (placed (fromEnd h) (fromEnd h).rangeOffset h.totalRemainingSize).rangeEnd = -1 :=
      last
    rw [adjustSize_open open_, Option.map_eq_some_iff] at adjusted
    obtain ⟨total, htotal, rfl⟩ := adjusted
    have total_eq : total = h.rangeSuffixLength := by
      rw [checked_eq_some htotal]
      simp only [placed, fromEnd]
      omega
    rw [if_pos (by omega), total_eq]
    rfl
  · have closed : (placed (fromEnd h) (fromEnd h).rangeOffset h.totalRemainingSize).rangeEnd ≠ -1 :=
      last
    rw [adjustSize_last closed, Option.map_eq_some_iff] at adjusted
    obtain ⟨size, hsize, rfl⟩ := adjusted
    have size_eq : size = h.rangeSuffixLength := by
      rw [checked_eq_some hsize]
      simp only [placed, fromEnd]
      omega
    rw [if_neg (by omega), size_eq]
    rfl

theorem seek_suffix_some {h h' : BlobResourceHandle} (suffix : h.rangeSuffixLength ≠ -1)
    (sought : h.seek = some h') : h' = suffixPlaced h := by
  cases converted : h.convertSuffix with
  | none => simp [seek, converted] at sought
  | some h₁ =>
    obtain rfl := convertSuffix_some suffix converted
    rw [seek_eq converted] at sought
    unfold suffixPlaced
    by_cases whole : h.totalRemainingSize - h.rangeSuffixLength = -1
    · rw [if_pos whole]
      rw [if_pos (show (fromEnd h).rangeOffset = -1 from whole)] at sought
      exact (Option.some.inj sought).symm
    · rw [if_neg whole]
      rw [if_neg (show ¬ (fromEnd h).rangeOffset = -1 from whole)] at sought
      exact adjustSize_fromEnd sought

/-- No difference overflows. -/
theorem seek_suffix {h : BlobResourceHandle} (suffix : 0 ≤ h.rangeSuffixLength)
    (small : h.rangeSuffixLength ≤ int64Max) (total : 0 ≤ h.totalRemainingSize)
    (most : h.totalRemainingSize ≤ intMax) : h.seek = some (suffixPlaced h) := by
  have given : h.rangeSuffixLength ≠ -1 := by omega
  simp only [intMax] at most
  have max : int64Max = 9223372036854775807 := by decide
  have min : int64Min = -9223372036854775808 := by decide
  rw [max] at small
  have converted : h.convertSuffix = some (fromEnd h) := by
    rw [convertSuffix, positionNotSpecified, if_pos given,
      checked_eq (by rw [min]; omega) (by rw [max]; omega)]
    simp only [Option.bind_eq_bind, Option.bind_some]
    rw [checked_eq (by rw [min]; omega) (by rw [max]; omega), Option.bind_some,
      checked_eq (by rw [min]; omega) (by rw [max]; omega)]
    simp [fromEnd]
  cases sought : h.seek with
  | some h' => rw [seek_suffix_some given sought]
  | none =>
    -- every checked value fits
    rw [seek_eq converted] at sought
    split_ifs at sought with whole
    by_cases last : h.totalRemainingSize - 1 = -1
    · have last' : (placed (fromEnd h) (fromEnd h).rangeOffset
          (fromEnd h).totalRemainingSize).rangeEnd = -1 := last
      rw [adjustSize_open last'] at sought
      simp only [placed, fromEnd] at sought
      rw [checked_eq (by rw [min]; omega) (by rw [max]; omega)] at sought
      cases sought
    · have last' : (placed (fromEnd h) (fromEnd h).rangeOffset
          (fromEnd h).totalRemainingSize).rangeEnd ≠ -1 := last
      rw [adjustSize_last last'] at sought
      simp only [placed, fromEnd] at sought
      rw [checked_eq (by rw [min]; omega) (by rw [max]; omega)] at sought
      cases sought

end NetRider.Blob
