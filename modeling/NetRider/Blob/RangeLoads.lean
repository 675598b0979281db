import NetRider.Blob.SyncLoad

/-!
# Which ranges a synchronous load delivers
-/

namespace NetRider.Blob

open NetRider.Wtf BlobResourceHandle

/-! ## What is asked for -/

/-- The ranges that `parseRange` gives: from the end, or from a first byte on. -/
inductive Accepted : ByteRange → Prop
  | suffix {s : Int} : int64Min ≤ s → s ≤ int64Max → Accepted ⟨-1, -1, s⟩
  | bytes {first last : Int} : 0 ≤ first → first ≤ int64Max → (last = -1 ∨ first ≤ last) →
      last ≤ int64Max → Accepted ⟨first, last, -1⟩

theorem requestRange_accepted {icu : Icu} {header : List UChar} {range : ByteRange}
    (h : requestRange icu header = some range) : Accepted range := by
  have unspecified : Accepted .notSpecified := .suffix (by decide) (by decide)
  unfold requestRange at h
  split_ifs at h
  · cases h
    exact unspecified
  · unfold parseRange at h
    split_ifs at h
    dsimp only at h
    split at h
    · cases h
    · split at h
      · split at h
        · rename_i value parsed
          cases h
          obtain ⟨least, most⟩ := toInt64Strict_range parsed
          exact .suffix least most
        · cases h
          exact unspecified
      · split at h
        · cases h
        · rename_i first parsed
          have range := toInt64Strict_range parsed
          split at h
          · cases h
          · rename_i last parsed'
            split_ifs at h with bad
            cases h
            have order : last = -1 ∨ first ≤ last := by omega
            refine .bytes (by omega) range.2 order ?_
            split_ifs at parsed' with empty
            · cases parsed'
              decide
            · exact (toInt64Strict_range parsed').2

/-- The bytes that a range asks for. A suffix that is longer than the blob means all of it. -/
def requested (range : ByteRange) (bytes : List Address) : List Address :=
  if range.rangeSuffixLength ≠ -1 then bytes.drop (bytes.length - range.rangeSuffixLength.toNat)
  else if range.rangeOffset = -1 then bytes
  else if range.rangeEnd = -1 then bytes.drop range.rangeOffset.toNat
  else (bytes.drop range.rangeOffset.toNat).take (range.rangeEnd - range.rangeOffset + 1).toNat

/-- The load delivers the bytes that were asked for, and as many as it announces. -/
def Served (items : List BlobDataItem) (range : ByteRange) (contents : Address → UInt8) : Prop :=
  ∃ response, loadResourceSynchronously items range = some response ∧
    response.data.map contents = (requested range (blob items)).map contents ∧
    response.expectedContentLength = response.data.length

/-- The blob begins with the beginning of a file that has nothing else, or is the whole blob. -/
def BeginsWithFile : List BlobDataItem → Prop
  | .file size 0 length :: rest =>
    size = (BlobDataItem.file size 0 length).itemLength ∨ totalLength rest = 0
  | _ => False

/-- The ranges that survive one `seek` for every item. -/
def RangeLoads (items : List BlobDataItem) (range : ByteRange) : Prop :=
  let total : Int := totalLength items
  items = [] ∨
  if range.rangeSuffixLength ≠ -1 then
    range.rangeSuffixLength = 0 ∨ range.rangeSuffixLength = total ∨
    range.rangeSuffixLength = total + 1 ∨
    (items.length = 1 ∧ 0 ≤ range.rangeSuffixLength ∧ range.rangeSuffixLength ≤ total) ∨
    (total + 1 < range.rangeSuffixLength ∧ 0 < total ∧ BeginsWithFile items)
  else if range.rangeOffset = -1 then True
  else if range.rangeEnd = -1 then
    range.rangeOffset = 0 ∨ (items.length = 1 ∧ range.rangeOffset ≤ total)
  else range.rangeEnd < total ∨
    ((range.rangeOffset = 0 ∨ total = 0) ∧ range.rangeEnd - range.rangeOffset + 1 ≤ int64Max)

/-- The same for the places where the bytes are read. -/
theorem served_iff (items : List BlobDataItem) (range : ByteRange) :
    (∀ contents, Served items range contents) ↔
      loadResourceSynchronously items range =
        some ⟨(requested range (blob items)).length, requested range (blob items)⟩ := by
  constructor
  · intro served
    obtain ⟨response, loaded, -, size⟩ := served fun _ => 0
    have same : response.data = requested range (blob items) := by
      apply map_eq_iff.mp
      intro contents
      obtain ⟨response', loaded', same, -⟩ := served contents
      rw [loaded] at loaded'
      cases loaded'
      exact same
    rw [loaded, ← same, ← size]
  · intro loaded contents
    exact ⟨_, loaded, rfl, rfl⟩

/-! ## From the handle to the response -/

section

variable {items : List BlobDataItem} {range : ByteRange} {h : BlobResourceHandle}

theorem load_eq_some {response : SyncResponse} (started : startSync items range = some h)
    (loaded : loadResourceSynchronously items range = some response) :
    response.expectedContentLength = h.totalRemainingSize ∧ 0 ≤ h.totalRemainingSize ∧
      readSync items (h.totalRemainingSize.toNat + items.length + 1) h h.totalRemainingSize.toNat =
        some response.data := by
  simp only [loadResourceSynchronously, started, Option.bind_eq_bind, Option.bind_some] at loaded
  split_ifs at loaded with fits
  obtain ⟨data, read, same⟩ := Option.bind_eq_some_iff.mp loaded
  cases same
  exact ⟨rfl, fits.1, read⟩

/-- From a place in the blob the load is right if it announces as many bytes as were asked for. -/
theorem load_iff (wellFormed : ∀ item ∈ items, item.WellFormed)
    (small : (totalLength items : Int) ≤ intMax) (started : startSync items range = some h)
    (ready : Ready items h) {place : Nat} (waiting : pending items h = (blob items).drop place)
    {bytes : List Address}
    (asked : h.totalRemainingSize = bytes.length →
      bytes = ((blob items).drop place).take bytes.length) :
    loadResourceSynchronously items range = some ⟨bytes.length, bytes⟩ ↔
      h.totalRemainingSize = bytes.length := by
  constructor
  · intro loaded
    exact (load_eq_some started loaded).1.symm
  · intro total
    have same := asked total
    have within : bytes.length ≤ (pending items h).length := by
      rw [waiting, same]
      exact List.length_take_le' _ _
    have short : bytes.length ≤ totalLength items := by
      rw [waiting, List.length_drop, blob, length_blobFrom] at within
      omega
    have fits : 0 ≤ h.totalRemainingSize ∧ h.totalRemainingSize ≤ intMax := by omega
    have read := readSync_reads wellFormed ready total (by omega) within
      (by omega : bytes.length + (items.length - h.readItemCount) < bytes.length + items.length + 1)
    rw [waiting, ← same] at read
    simp only [loadResourceSynchronously, started, Option.bind_eq_bind, Option.bind_some]
    rw [if_pos fits, total, Int.toNat_natCast, read]
    rfl

/-! ## Ranges that are not given or have a first byte -/

theorem seekTimes_fixed {n : Nat} (fixed : h.seek = some h) : seekTimes n h = some h := by
  induction n with
  | zero => rfl
  | succ n ih => rw [seekTimes, fixed, Option.bind_some, ih]

theorem sized_ready (items : List BlobDataItem) (range : ByteRange) :
    Ready items (sized items range) ∧
      pending items (sized items range) = (blob items).drop 0 := by
  constructor
  · simp [Ready, sized, create]
  · exact pending_start rfl rfl

theorem load_unspecified (wellFormed : ∀ item ∈ items, item.WellFormed) (nonempty : items ≠ [])
    (small : (totalLength items : Int) ≤ intMax) :
    loadResourceSynchronously items ⟨-1, -1, -1⟩ = some ⟨(blob items).length, blob items⟩ := by
  obtain ⟨ready, waiting⟩ := sized_ready items ⟨-1, -1, -1⟩
  have fixed : (sized items ⟨-1, -1, -1⟩).seek = some (sized items ⟨-1, -1, -1⟩) := by
    rw [seek_eq (convertSuffix_none rfl)]
    exact if_pos rfl
  have started := startSync_eq ⟨-1, -1, -1⟩ nonempty small
  rw [seekTimes_fixed fixed] at started
  rw [load_iff wellFormed small started ready waiting (fun _ => by simp)]
  simp [sized, blob, length_blobFrom]

theorem placed_placed (h : BlobResourceHandle) (offset total offset' total' : Int) :
    placed (placed h offset total) offset' total' = placed h offset' total' := rfl

theorem seekTimes_pair (suffix : h.rangeSuffixLength = -1) (start : 0 ≤ h.rangeOffset)
    (last : h.rangeEnd ≠ -1) (n : Nat) :
    seekTimes (n + 1) h = (checked (h.rangeEnd - h.rangeOffset + 1)).map fun size =>
      placed h h.rangeOffset (min h.totalRemainingSize size) := by
  induction n generalizing h with
  | zero =>
    rw [seekTimes, seek_pair suffix start last]
    cases checked (h.rangeEnd - h.rangeOffset + 1) <;> rfl
  | succ n ih =>
    rw [seekTimes, seek_pair suffix start last]
    cases size : checked (h.rangeEnd - h.rangeOffset + 1) with
    | none => rfl
    | some size' =>
      have next := @ih (placed h h.rangeOffset (min h.totalRemainingSize size')) suffix start last
      simp only [Option.map_some, Option.bind_some]
      rw [next]
      change (checked (h.rangeEnd - h.rangeOffset + 1)).map _ = _
      rw [size, Option.map_some, placed_placed]
      simp [placed]

theorem load_pair_iff (wellFormed : ∀ item ∈ items, item.WellFormed) (nonempty : items ≠ [])
    (small : (totalLength items : Int) ≤ intMax) {first last : Int} (start : 0 ≤ first)
    (ordered : first ≤ last) :
    loadResourceSynchronously items ⟨first, last, -1⟩ =
        some ⟨(requested ⟨first, last, -1⟩ (blob items)).length,
          requested ⟨first, last, -1⟩ (blob items)⟩ ↔
      last < totalLength items ∨
        ((first = 0 ∨ (totalLength items : Int) = 0) ∧ last - first + 1 ≤ int64Max) := by
  have max : int64Max = 9223372036854775807 := by decide
  have min' : int64Min = -9223372036854775808 := by decide
  have given : last ≠ -1 := by omega
  have asked : requested ⟨first, last, -1⟩ (blob items) =
      ((blob items).drop first.toNat).take (last - first + 1).toNat := by
    have offset : ¬ first = -1 := by omega
    simp [requested, offset, given]
  obtain ⟨n, count⟩ := Nat.exists_eq_add_one_of_ne_zero (mt List.length_eq_zero_iff.mp nonempty)
  have started := startSync_eq ⟨first, last, -1⟩ nonempty small
  have sought := @seekTimes_pair (sized items ⟨first, last, -1⟩) rfl start given n
  rw [count, sought] at started
  change startSync items ⟨first, last, -1⟩ = (checked (last - first + 1)).map fun size =>
    placed (sized items ⟨first, last, -1⟩) first (min (totalLength items) size) at started
  have bound : intMax = 2147483647 := rfl
  by_cases overflow : last - first + 1 ≤ int64Max
  · rw [checked_eq (by omega) overflow, Option.map_some] at started
    obtain ⟨a, rfl⟩ := Int.eq_ofNat_of_zero_le start
    obtain ⟨ready, waiting⟩ := @placed_pending items (sized items ⟨a, last, -1⟩) rfl rfl a
      (min (totalLength items) (last - a + 1))
    rw [asked, load_iff wellFormed small started ready waiting]
    · simp only [placed, List.length_take, List.length_drop, blob, length_blobFrom,
        Int.toNat_natCast]
      omega
    · intro _
      rw [List.length_take, Int.toNat_natCast, ← List.take_eq_take_min]
  · have none : checked (last - first + 1) = none := if_neg fun fits => overflow fits.2
    rw [none, Option.map_none] at started
    constructor
    · intro loaded
      simp [loadResourceSynchronously, started] at loaded
    · intro fits
      omega

theorem seekTimes_open {h' : BlobResourceHandle} (suffix : h.rangeSuffixLength = -1)
    (start : 0 ≤ h.rangeOffset) (last : h.rangeEnd = -1) {n : Nat}
    (sought : seekTimes n h = some h') :
    h'.totalRemainingSize = h.totalRemainingSize - n * h.rangeOffset := by
  induction n generalizing h with
  | zero =>
    cases sought
    simp
  | succ n ih =>
    rw [seekTimes, seek_open suffix start last] at sought
    cases total : checked (h.totalRemainingSize - h.rangeOffset) with
    | none => simp [total] at sought
    | some total' =>
      rw [total, Option.map_some, Option.bind_some] at sought
      obtain rfl := checked_eq_some total
      have rest := @ih (placed h h.rangeOffset (h.totalRemainingSize - h.rangeOffset)) suffix start
        last sought
      rw [rest]
      simp only [placed]
      push_cast
      ring

theorem load_open_iff (wellFormed : ∀ item ∈ items, item.WellFormed) (nonempty : items ≠ [])
    (small : (totalLength items : Int) ≤ intMax) {first : Int} (start : 0 ≤ first)
    (most : first ≤ int64Max) :
    loadResourceSynchronously items ⟨first, -1, -1⟩ =
        some ⟨(requested ⟨first, -1, -1⟩ (blob items)).length,
          requested ⟨first, -1, -1⟩ (blob items)⟩ ↔
      first = 0 ∨ (items.length = 1 ∧ first ≤ totalLength items) := by
  have max : int64Max = 9223372036854775807 := by decide
  have min' : int64Min = -9223372036854775808 := by decide
  have bound : intMax = 2147483647 := rfl
  have asked : requested ⟨first, -1, -1⟩ (blob items) = (blob items).drop first.toNat := by
    have offset : ¬ first = -1 := by omega
    simp [requested, offset]
  obtain ⟨n, count⟩ := Nat.exists_eq_add_one_of_ne_zero (mt List.length_eq_zero_iff.mp nonempty)
  have once := @seek_open (sized items ⟨first, -1, -1⟩) rfl start rfl
  change (sized items ⟨first, -1, -1⟩).seek = (checked (totalLength items - first)).map
    (placed (sized items ⟨first, -1, -1⟩) first) at once
  rw [checked_eq (by omega) (by omega), Option.map_some] at once
  have started := startSync_eq ⟨first, -1, -1⟩ nonempty small
  rw [asked]
  constructor
  · intro loaded
    cases final : startSync items ⟨first, -1, -1⟩ with
    | none => simp [loadResourceSynchronously, final] at loaded
    | some h' =>
      rw [started] at final
      have total := @seekTimes_open (sized items ⟨first, -1, -1⟩) _ rfl start rfl _ final
      have announced := (load_eq_some (started.trans final) loaded).1
      rw [total, count, List.length_drop, blob, length_blobFrom] at announced
      change ((totalLength items - first.toNat : Nat) : Int) =
        totalLength items - (n + 1 : Nat) * first at announced
      push_cast at announced
      by_cases zero : first = 0
      · exact .inl zero
      · right
        cases n with
        | zero => exact ⟨count, by simp at announced; omega⟩
        | succ n =>
          -- every further `seek` takes the offset off once more
          have more : 0 ≤ (n : Int) * first := Int.mul_nonneg (Int.natCast_nonneg n) start
          have sum : ((n + 1 : Nat) + 1 : Int) * first = n * first + 2 * first := by push_cast; ring
          rw [sum] at announced
          omega
  · intro fits
    have final : startSync items ⟨first, -1, -1⟩ =
        some (placed (sized items ⟨first, -1, -1⟩) first (totalLength items - first)) := by
      rw [started, count, seekTimes, once, Option.bind_some]
      obtain rfl | ⟨one, -⟩ := fits
      · apply seekTimes_fixed
        have again := @seek_open
          (placed (sized items ⟨0, -1, -1⟩) 0 (totalLength items - 0)) rfl le_rfl rfl
        change _ = (checked ((totalLength items - 0 : Int) - 0)).map
          (placed (sized items ⟨0, -1, -1⟩) 0) at again
        rw [again, checked_eq (by omega) (by omega), Option.map_some]
        simp
      · obtain rfl : n = 0 := by omega
        rfl
    obtain ⟨a, rfl⟩ := Int.eq_ofNat_of_zero_le start
    obtain ⟨ready, waiting⟩ := @placed_pending items (sized items ⟨a, -1, -1⟩) rfl rfl a
      (totalLength items - a)
    rw [Int.toNat_natCast, load_iff wellFormed small final ready waiting]
    · simp only [placed, List.length_drop, blob, length_blobFrom]
      omega
    · intro _
      rw [List.take_length]

/-! ## Ranges from the end -/

theorem suffixPlaced_inner (within : h.rangeSuffixLength ≤ h.totalRemainingSize) :
    suffixPlaced h = placed (fromEnd h) (h.totalRemainingSize - h.rangeSuffixLength)
      h.rangeSuffixLength := by
  rw [suffixPlaced, if_neg (by omega)]
  have total : (if h.totalRemainingSize = 0 then h.rangeSuffixLength
      else min h.totalRemainingSize h.rangeSuffixLength) = h.rangeSuffixLength := by
    split_ifs <;> omega
  rw [total]
  rfl

/-- Once that many bytes are left, a further `seek` goes to the start of the blob. -/
theorem seekTimes_again (suffix : 0 ≤ h.rangeSuffixLength)
    (small : h.rangeSuffixLength ≤ intMax) (total : h.totalRemainingSize = h.rangeSuffixLength)
    (n : Nat) :
    seekTimes (n + 1) h = some (placed (fromEnd h) 0 h.rangeSuffixLength) := by
  have max : int64Max = 9223372036854775807 := by decide
  have bound : intMax = 2147483647 := rfl
  induction n generalizing h with
  | zero =>
    rw [seekTimes, seek_suffix suffix (by omega) (by omega) (by omega),
      suffixPlaced_inner (by omega), total, Int.sub_self]
    rfl
  | succ n ih =>
    rw [seekTimes, seek_suffix suffix (by omega) (by omega) (by omega), Option.bind_some,
      suffixPlaced_inner (by omega), total, Int.sub_self]
    have next := @ih (placed (fromEnd h) 0 h.rangeSuffixLength) suffix small rfl
    rw [next]
    simp [placed, fromEnd, total]

/-- A negative suffix, or one of an empty blob: that many bytes are announced. -/
theorem seekTimes_announced {h' : BlobResourceHandle}
    (odd : (h.rangeSuffixLength < -1 ∧ (0 ≤ h.totalRemainingSize ∨
        h.totalRemainingSize = h.rangeSuffixLength)) ∨
      (1 < h.rangeSuffixLength ∧ (h.totalRemainingSize = 0 ∨
        h.totalRemainingSize = h.rangeSuffixLength)))
    {n : Nat} (sought : seekTimes (n + 1) h = some h') :
    h'.totalRemainingSize = h.rangeSuffixLength := by
  have once : ∀ {h h' : BlobResourceHandle}, (h.rangeSuffixLength < -1 ∧
        (0 ≤ h.totalRemainingSize ∨ h.totalRemainingSize = h.rangeSuffixLength)) ∨
      (1 < h.rangeSuffixLength ∧
        (h.totalRemainingSize = 0 ∨ h.totalRemainingSize = h.rangeSuffixLength)) →
      h.seek = some h' → h'.totalRemainingSize = h.rangeSuffixLength ∧
        h'.rangeSuffixLength = h.rangeSuffixLength := by
    intro h h' odd sought
    rw [seek_suffix_some (by omega) sought, suffixPlaced, if_neg (by omega)]
    simp only [placed, fromEnd]
    constructor
    · split_ifs <;> omega
    · trivial
  induction n generalizing h with
  | zero =>
    rw [seekTimes] at sought
    cases step : h.seek with
    | none => simp [step] at sought
    | some h₁ =>
      rw [step, Option.bind_some] at sought
      cases sought
      exact (once odd step).1
  | succ n ih =>
    rw [seekTimes] at sought
    cases step : h.seek with
    | none => simp [step] at sought
    | some h₁ =>
      rw [step, Option.bind_some] at sought
      obtain ⟨total, suffix⟩ := once odd step
      rw [ih (by omega) sought, suffix]

theorem nodup_blobFrom (first : Nat) (items : List BlobDataItem) :
    (blobFrom first items).Nodup ∧ ∀ address ∈ blobFrom first items, first ≤ address.1 := by
  induction items generalizing first with
  | nil => exact ⟨List.nodup_nil, nofun⟩
  | cons item items ih =>
    obtain ⟨nodup, later⟩ := ih (first + 1)
    have own : ∀ address ∈ bytesAt first item.offset item.itemLength, address.1 = first := by
      intro address member
      obtain ⟨position, -, rfl⟩ := List.mem_map.mp member
      rfl
    constructor
    · rw [blobFrom, List.nodup_append]
      refine ⟨?_, nodup, ?_⟩
      · exact (List.nodup_range' 1).map fun a b same => (Prod.mk.inj same).2
      · rintro a inItem b inRest rfl
        have one := own a inItem
        have other := later a inRest
        omega
    · intro address member
      obtain member | member := List.mem_append.mp member
      · exact (own address member).ge
      · have := later address member
        omega

/-- The first bytes of a list are not its last ones, unless they are none or all. -/
theorem take_eq_drop_iff {bytes : List Address} (nodup : bytes.Nodup) {n : Nat}
    (within : n ≤ bytes.length) :
    bytes.take n = bytes.drop (bytes.length - n) ↔ n = 0 ∨ n = bytes.length := by
  constructor
  · intro same
    by_contra neither
    have first := congrArg (·[0]?) same
    have inside : bytes.length - n < bytes.length := by omega
    have here : 0 < bytes.length := by omega
    simp only [List.getElem?_take, List.getElem?_drop, Nat.add_zero] at first
    rw [if_pos (by omega), List.getElem?_eq_getElem inside, List.getElem?_eq_getElem here] at first
    have equal := (List.Nodup.getElem_inj_iff nodup).mp (Option.some.inj first)
    omega
  · rintro (rfl | rfl)
    · simp
    · simp

theorem mem_bytesAt {item position count : Nat} {address : Address} :
    address ∈ bytesAt item position count ↔
      address.1 = item ∧ position ≤ address.2 ∧ address.2 < position + count := by
  obtain ⟨i, p⟩ := address
  simp only [bytesAt, List.mem_map, List.mem_range'_1, Prod.mk.injEq]
  constructor
  · rintro ⟨q, within, rfl, rfl⟩
    exact ⟨rfl, within⟩
  · rintro ⟨rfl, within⟩
    exact ⟨p, within, rfl, rfl⟩

/-- The bytes of the first item lie in its slice. -/
theorem mem_blob_first {item : BlobDataItem} {rest : List BlobDataItem} {position : Nat}
    (member : (0, position) ∈ blob (item :: rest)) :
    item.offset ≤ position ∧ position < item.offset + item.itemLength := by
  obtain own | later := List.mem_append.mp member
  · exact (mem_bytesAt.mp own).2
  · have := (nodup_blobFrom 1 rest).2 _ later
    simp only at this
    omega

/-- The handle of a suffix that is longer than the blob by more than a byte: in front of the first
item. -/
def inFront (items : List BlobDataItem) (s : Int) : BlobResourceHandle :=
  placed (fromEnd (sized items ⟨-1, -1, s⟩)) (totalLength items - s) (totalLength items)

theorem startSync_inFront {s : Int} (nonempty : items ≠ []) (some_ : 0 < totalLength items)
    (small : (totalLength items : Int) ≤ intMax) (long : (totalLength items : Int) + 1 < s)
    (most : s ≤ int64Max) : startSync items ⟨-1, -1, s⟩ = some (inFront items s) := by
  have once : ∀ h : BlobResourceHandle, h.rangeSuffixLength = s →
      h.totalRemainingSize = totalLength items →
      h.seek = some (placed (fromEnd h) (totalLength items - s) (totalLength items)) := by
    intro h suffix total
    rw [seek_suffix (by omega) (by omega) (by omega) (by omega), suffixPlaced, if_neg (by omega)]
    have least : (if h.totalRemainingSize = 0 then h.rangeSuffixLength
        else min h.totalRemainingSize h.rangeSuffixLength) = totalLength items := by
      split_ifs <;> omega
    rw [least]
    simp only [fromEnd, suffix, total]
  obtain ⟨n, count⟩ := Nat.exists_eq_add_one_of_ne_zero (mt List.length_eq_zero_iff.mp nonempty)
  rw [startSync_eq _ nonempty small, count, seekTimes, once _ rfl rfl, Option.bind_some]
  apply seekTimes_fixed
  exact once (inFront items s) rfl rfl

/-- In front of the first item. -/
theorem inFront_place {item : BlobDataItem} {rest : List BlobDataItem} {s : Int}
    (long : (totalLength (item :: rest) : Int) + 1 < s) :
    (inFront (item :: rest) s).readItemCount = 0 ∧
      (inFront (item :: rest) s).currentItemReadSize = totalLength (item :: rest) - s := by
  have place : skipItems ((item :: rest).map fun item => (item.itemLength : Int)) 0
      (totalLength (item :: rest) - s) = (0, (totalLength (item :: rest) : Int) - s) := by
    rw [List.map_cons, skipItems, if_neg (by omega)]
  constructor
  · exact congrArg Prod.fst place
  · exact congrArg Prod.snd place

theorem readSync_data_inFront {size offset length : Nat} {rest : List BlobDataItem} {s : Int}
    (some_ : 0 < totalLength (.data size offset length :: rest))
    (long : (totalLength (.data size offset length :: rest) : Int) + 1 < s) (rounds : Nat) :
    readSync (.data size offset length :: rest) rounds
      (inFront (.data size offset length :: rest) s)
      (totalLength (.data size offset length :: rest)) = none := by
  obtain ⟨place, current⟩ := inFront_place long
  generalize hT : totalLength (.data size offset length :: rest) = T at *
  cases rounds with
  | zero => rfl
  | succ rounds =>
    have total : (inFront (.data size offset length :: rest) s).totalRemainingSize = T := by
      rw [← hT]
      rfl
    have outside : (inFront (.data size offset length :: rest) s).readDataSync size offset length T =
        none := by
      unfold readDataSync
      simp only [current, total]
      apply if_neg
      split_ifs <;> omega
    rw [readSync, if_neg (by omega), place]
    simp only [List.getElem?_cons_zero, readItemSync, outside]
    rfl

/-- The stream that is opened in front of the first item: from before its slice, or from the start
of the file, and for more bytes than the slice has. -/
theorem openFileSync_inFront {size offset : Nat} {length : Option Nat} {rest : List BlobDataItem}
    {s : Int} {item : BlobDataItem} (file : item = .file size offset length)
    (long : (totalLength (item :: rest) : Int) + 1 < s) :
    (inFront (item :: rest) s).openFileSync item = { inFront (item :: rest) s with
      fileOpened := some ⟨((offset : Int) + (totalLength (item :: rest) - s)).toNat,
        min (item.itemLength - (totalLength (item :: rest) - s)) (totalLength (item :: rest))⟩
      currentItemReadSize := 0 } := by
  obtain ⟨-, current⟩ := inFront_place long
  have closed : (inFront (item :: rest) s).fileOpened = none := rfl
  have total : (inFront (item :: rest) s).totalRemainingSize = totalLength (item :: rest) := rfl
  have start : item.offset = offset := by rw [file]; rfl
  simp only [openFileSync, closed, openFile, current, total, FileStream.openForRead, start]
  generalize totalLength (item :: rest) = T at *
  congr 3
  · split_ifs <;> omega
  · split_ifs <;> omega

theorem readFileSync_inFront {size offset : Nat} {length : Option Nat} {rest : List BlobDataItem}
    {s : Int} {item : BlobDataItem} (file : item = .file size offset length)
    (small : (totalLength (item :: rest) : Int) ≤ intMax)
    (long : (totalLength (item :: rest) : Int) + 1 < s) {T P L k : Nat}
    (hT : T = totalLength (item :: rest)) (hP : P = ((offset : Int) + (T - s)).toNat)
    (hL : (L : Int) = min (item.itemLength - (T - s)) T) (hk : k = min L (size - P)) :
    (inFront (item :: rest) s).readFileSync item T = some (if k = 0 then
      ([], { inFront (item :: rest) s with
        fileOpened := none
        readItemCount := 1
        currentItemReadSize := 0 })
      else (bytesAt 0 P k, { inFront (item :: rest) s with
        fileOpened := some ⟨P + k, L - k⟩
        totalRemainingSize := T - k
        currentItemReadSize := 0 })) := by
  obtain ⟨place, -⟩ := inFront_place long
  have size' : item.size = size := by rw [file]; rfl
  have total : (inFront (item :: rest) s).totalRemainingSize = T := by rw [hT]; rfl
  have count : min (FileStream.bytesToRead ⟨P, L⟩ T).toNat (size - P) = k := by
    unfold FileStream.bytesToRead
    simp only
    split_ifs with less
    · rw [castInt_eq (by omega) (by omega)]
      omega
    · omega
  unfold readFileSync
  rw [openFileSync_inFront file long, ← hT, ← hP, ← hL]
  simp only [size', count, place, total, FileStream.advance]
  split_ifs
  · rfl
  · rfl

/-- One round of the loop. -/
theorem readSync_round {h' : BlobResourceHandle} {item : BlobDataItem} {remaining rounds : Nat}
    {bytes : List Address} (more : remaining ≠ 0) (total : h.totalRemainingSize ≠ 0)
    (found : items[h.readItemCount]? = some item)
    (read : h.readItemSync item remaining = some (bytes, h')) :
    readSync items (rounds + 1) h remaining =
      (readSync items rounds h' (remaining - bytes.length)).map (bytes ++ ·) := by
  rw [readSync, if_neg (by omega)]
  simp only [found, read, Option.bind_eq_bind, Option.bind_some]
  cases readSync items rounds h' (remaining - bytes.length) <;> rfl

/-- From the second item on. -/
theorem readSync_second {item : BlobDataItem} {rest : List BlobDataItem}
    (wellFormed : ∀ item' ∈ item :: rest, item'.WellFormed) (place : h.readItemCount = 1)
    (start : h.currentItemReadSize = 0) (closed : h.fileOpened = none)
    (total : h.totalRemainingSize = totalLength rest)
    (small : (totalLength rest : Int) ≤ intMax) {rounds : Nat}
    (time : totalLength rest + rest.length < rounds) :
    readSync (item :: rest) rounds h (totalLength rest) = some (blobFrom 1 rest) := by
  have ready : Ready (item :: rest) h := by simp [Ready, closed, start]
  have waiting : pending (item :: rest) h = blobFrom 1 rest := by
    rw [pending_start closed start, place]
    rfl
  have size : (blobFrom 1 rest).length = totalLength rest := length_blobFrom 1 rest
  rw [readSync_reads wellFormed ready total small (by rw [waiting, size])
    (by rw [place, List.length_cons]; omega), waiting, ← size, List.take_length]

theorem readSync_file_inFront {size : Nat} {length : Option Nat} {rest : List BlobDataItem} {s : Int}
    {item : BlobDataItem} (file : item = .file size 0 length)
    (wellFormed : ∀ item' ∈ item :: rest, item'.WellFormed)
    (some_ : 0 < totalLength (item :: rest))
    (small : (totalLength (item :: rest) : Int) ≤ intMax)
    (long : (totalLength (item :: rest) : Int) + 1 < s)
    (whole : size = item.itemLength ∨ totalLength rest = 0) :
    readSync (item :: rest) (totalLength (item :: rest) + (item :: rest).length + 1)
      (inFront (item :: rest) s) (totalLength (item :: rest)) = some (blob (item :: rest)) := by
  obtain ⟨place, -⟩ := inFront_place long
  have sum : totalLength (item :: rest) = item.itemLength + totalLength rest := by
    simp [totalLength]
  have within : item.itemLength ≤ size := by
    have ok := wellFormed item List.mem_cons_self
    rw [file] at ok ⊢
    cases length with
    | none => exact le_rfl
    | some length => simpa [BlobDataItem.WellFormed, BlobDataItem.itemLength] using ok
  have total : (inFront (item :: rest) s).totalRemainingSize = totalLength (item :: rest) := rfl
  have item_size : item.size = size := by rw [file]; rfl
  have isFile : ∀ h n, readItemSync h item n = h.readFileSync item n := by
    rw [file]
    exact fun _ _ => rfl
  obtain ⟨L, hL⟩ := Int.eq_ofNat_of_zero_le (by omega :
    0 ≤ min ((item.itemLength : Int) - (totalLength (item :: rest) - s)) (totalLength (item :: rest)))
  have read := @readFileSync_inFront _ _ _ _ _ _ file small long _ 0 L item.itemLength rfl (by omega)
    hL.symm (by omega)
  rw [← isFile] at read
  have blob_eq : blob (item :: rest) = bytesAt 0 0 item.itemLength ++ blobFrom 1 rest := by
    have start : item.offset = 0 := by rw [file]; rfl
    rw [blob, blobFrom, start]
  rw [blob_eq]
  by_cases empty : item.itemLength = 0
  · rw [if_pos empty] at read
    rw [readSync_round (by omega) (by omega) (by rw [place]; rfl) read]
    rw [List.length_nil, Nat.sub_zero, sum, empty, Nat.zero_add,
      readSync_second wellFormed rfl rfl rfl (by rw [total, sum, empty]; simp) (by omega)
        (by rw [List.length_cons]; omega)]
    simp [bytesAt]
  · rw [if_neg empty] at read
    obtain ⟨h', read, place', start, total', opened⟩ : ∃ h',
        (inFront (item :: rest) s).readItemSync item (totalLength (item :: rest)) =
          some (bytesAt 0 0 item.itemLength, h') ∧ h'.readItemCount = 0 ∧
        h'.currentItemReadSize = 0 ∧ h'.totalRemainingSize = totalLength rest ∧
        h'.fileOpened = some ⟨0 + item.itemLength, L - item.itemLength⟩ :=
      ⟨_, read, place, rfl, by simp only [sum]; omega, rfl⟩
    rw [readSync_round (by omega) (by omega) (by rw [place]; rfl) read, length_bytesAt, sum,
      Nat.add_sub_cancel_left, List.length_cons, ← Nat.add_assoc]
    by_cases last : totalLength rest = 0
    · have done : blobFrom 1 rest = [] :=
        List.eq_nil_of_length_eq_zero ((length_blobFrom 1 rest).trans last)
      rw [readSync, if_pos (.inl last), done]
      rfl
    · -- the file has ended, so the next read closes it
      have closes : h'.readFileSync item (totalLength rest) =
          some ([], { h' with fileOpened := none, readItemCount := 1 }) := by
        have stays : h'.openFileSync item = h' := by simp only [openFileSync, opened]
        have ended : size - item.itemLength = 0 := by omega
        unfold readFileSync
        simp only [stays, opened, item_size, ended, Nat.min_zero, if_true, place', Nat.zero_add]
      rw [← isFile] at closes
      have second := @readSync_second { h' with fileOpened := none, readItemCount := 1 } item rest
        wellFormed rfl start rfl total' (by omega) (item.itemLength + totalLength rest + rest.length) (by omega)
      rw [readSync_round last (by omega) (by rw [place']; rfl) closes, List.length_nil,
        Nat.sub_zero, second]
      rfl

/-- What is read in front of the first item is not in the blob, unless the file begins there. -/
theorem begins_of_read {size offset : Nat} {length : Option Nat} {rest : List BlobDataItem} {s : Int}
    (wellFormed : ∀ item ∈ .file size offset length :: rest, item.WellFormed)
    (some_ : 0 < totalLength (.file size offset length :: rest))
    (small : (totalLength (.file size offset length :: rest) : Int) ≤ intMax)
    (long : (totalLength (.file size offset length :: rest) : Int) + 1 < s) {rounds : Nat}
    (read : readSync (.file size offset length :: rest) rounds
      (inFront (.file size offset length :: rest) s)
      (totalLength (.file size offset length :: rest)) =
        some (blob (.file size offset length :: rest))) :
    BeginsWithFile (.file size offset length :: rest) := by
  obtain ⟨place, -⟩ := inFront_place long
  generalize file : BlobDataItem.file size offset length = item at *
  have sum : totalLength (item :: rest) = item.itemLength + totalLength rest := by
    simp [totalLength]
  have total : (inFront (item :: rest) s).totalRemainingSize = totalLength (item :: rest) := rfl
  have start : item.offset = offset := by rw [← file]; rfl
  have within : offset + item.itemLength ≤ size := by
    have ok := wellFormed item List.mem_cons_self
    rw [← file] at ok ⊢
    cases length with
    | none =>
      simp only [BlobDataItem.WellFormed] at ok
      simp [BlobDataItem.itemLength, ok]
    | some length => exact ok
  obtain ⟨L, hL⟩ := Int.eq_ofNat_of_zero_le (by omega :
    0 ≤ min ((item.itemLength : Int) - (totalLength (item :: rest) - s)) (totalLength (item :: rest)))
  generalize hP : ((offset : Int) + (totalLength (item :: rest) - s)).toNat = P
  generalize hk : min L (size - P) = k
  have first := readFileSync_inFront file.symm small long rfl hP.symm hL.symm hk.symm
  -- no byte outside of the slice is read
  have inSlice : ∀ position, P ≤ position → position < P + k →
      offset ≤ position ∧ position < offset + item.itemLength := by
    intro position low high
    rw [if_neg (by omega)] at first
    cases rounds with
    | zero => cases read
    | succ rounds =>
      have isFile : (inFront (item :: rest) s).readItemSync item (totalLength (item :: rest)) =
          (inFront (item :: rest) s).readFileSync item (totalLength (item :: rest)) := by
        rw [← file]
        rfl
      rw [← isFile] at first
      rw [readSync_round (by omega) (by omega) (by rw [place]; rfl) first] at read
      obtain ⟨data, -, same⟩ := Option.map_eq_some_iff.mp read
      have member : (0, position) ∈ blob (item :: rest) := by
        rw [← same]
        exact List.mem_append_left _ (mem_bytesAt.mpr ⟨rfl, low, high⟩)
      rw [← start]
      exact mem_blob_first member
  cases offset with
  | succ offset =>
    have early := inSlice P le_rfl (by omega)
    omega
  | zero =>
    rw [← file]
    change size = (BlobDataItem.file size 0 length).itemLength ∨ _
    rw [file]
    by_contra neither
    have late := inSlice item.itemLength (by omega) (by omega)
    omega

theorem load_overlong_iff (wellFormed : ∀ item ∈ items, item.WellFormed) {s : Int}
    (nonempty : items ≠ []) (some_ : 0 < totalLength items)
    (small : (totalLength items : Int) ≤ intMax) (long : (totalLength items : Int) + 1 < s)
    (most : s ≤ int64Max) :
    loadResourceSynchronously items ⟨-1, -1, s⟩ = some ⟨(blob items).length, blob items⟩ ↔
      BeginsWithFile items := by
  have started := startSync_inFront nonempty some_ small long most
  have total : (inFront items s).totalRemainingSize = totalLength items := rfl
  have fits : 0 ≤ (inFront items s).totalRemainingSize ∧
      (inFront items s).totalRemainingSize ≤ intMax := by omega
  have load : loadResourceSynchronously items ⟨-1, -1, s⟩ =
      (readSync items (totalLength items + items.length + 1) (inFront items s)
        (totalLength items)).map fun data => ⟨totalLength items, data⟩ := by
    simp only [loadResourceSynchronously, started, Option.bind_eq_bind, Option.bind_some]
    rw [if_pos fits, total, Int.toNat_natCast]
    cases readSync items (totalLength items + items.length + 1) (inFront items s)
      (totalLength items) <;> rfl
  have size : (blob items).length = totalLength items := length_blobFrom 0 items
  rw [load, size]
  cases items with
  | nil => contradiction
  | cons item rest =>
    constructor
    · intro loaded
      obtain ⟨data, read, same⟩ := Option.map_eq_some_iff.mp loaded
      obtain rfl : data = blob (item :: rest) := congrArg SyncResponse.data same
      cases item with
      | data size' offset length =>
        rw [readSync_data_inFront some_ long] at read
        cases read
      | file size' offset length => exact begins_of_read wellFormed some_ small long read
    · intro begins
      cases item with
      | data size' offset length => cases begins
      | file size' offset length =>
        cases offset with
        | zero => rw [readSync_file_inFront rfl wellFormed some_ small long begins]; rfl
        | succ offset => cases begins

theorem load_suffix_iff (wellFormed : ∀ item ∈ items, item.WellFormed) (nonempty : items ≠ [])
    (small : (totalLength items : Int) ≤ intMax) {s : Int} (given : s ≠ -1) (most : s ≤ int64Max) :
    loadResourceSynchronously items ⟨-1, -1, s⟩ =
        some ⟨(requested ⟨-1, -1, s⟩ (blob items)).length, requested ⟨-1, -1, s⟩ (blob items)⟩ ↔
      s = 0 ∨ s = totalLength items ∨ s = totalLength items + 1 ∨
      (items.length = 1 ∧ 0 ≤ s ∧ s ≤ totalLength items) ∨
      (totalLength items + 1 < s ∧ 0 < (totalLength items : Int) ∧ BeginsWithFile items) := by
  have size : (blob items).length = totalLength items := length_blobFrom 0 items
  have asked : requested ⟨-1, -1, s⟩ (blob items) =
      (blob items).drop (totalLength items - s.toNat) := by
    simp [requested, given, size]
  rw [asked]
  have max : int64Max = 9223372036854775807 := by decide
  have bound : intMax = 2147483647 := rfl
  obtain ⟨n, count⟩ := Nat.exists_eq_add_one_of_ne_zero (mt List.length_eq_zero_iff.mp nonempty)
  have started := startSync_eq ⟨-1, -1, s⟩ nonempty small
  rw [count] at started
  have announced : ∀ {bytes : List Address}, (s < -1 ∨ (1 < s ∧ totalLength items = 0)) →
      loadResourceSynchronously items ⟨-1, -1, s⟩ = some ⟨bytes.length, bytes⟩ →
      (bytes.length : Int) = s := by
    intro bytes odd loaded
    cases final : startSync items ⟨-1, -1, s⟩ with
    | none => simp [loadResourceSynchronously, final] at loaded
    | some h' =>
      have total := @seekTimes_announced (sized items ⟨-1, -1, s⟩) h'
        (by simp only [sized, create]; omega) n (started.symm.trans final)
      exact (load_eq_some final loaded).1.trans total
  by_cases negative : s < -1
  · constructor
    · intro loaded
      have := announced (.inl negative) loaded
      omega
    · omega
  by_cases inner : s ≤ totalLength items
  · have once := @seek_suffix (sized items ⟨-1, -1, s⟩) (by simp only [sized, create]; omega) most
      (by simp only [sized]; omega) small
    rw [suffixPlaced_inner inner] at once
    change _ = some (placed (fromEnd (sized items ⟨-1, -1, s⟩)) (totalLength items - s) s) at once
    rw [seekTimes, once, Option.bind_some] at started
    obtain ⟨a, rfl⟩ := Int.eq_ofNat_of_zero_le (by omega : 0 ≤ s)
    have place : (totalLength items : Int) - a = ((totalLength items - a : Nat) : Int) := by omega
    rw [Int.toNat_natCast]
    cases n with
    | zero =>
      obtain ⟨ready, waiting⟩ := @placed_pending items (fromEnd (sized items ⟨-1, -1, a⟩)) rfl rfl
        (totalLength items - a) a
      rw [place] at started
      rw [load_iff wellFormed small started ready waiting (fun _ => by rw [List.take_length])]
      simp only [placed, List.length_drop, size]
      omega
    | succ n =>
      -- the second `seek` goes to the start
      rw [seekTimes_again (by simp only [placed, fromEnd, sized, create]; omega)
        (by simp only [placed, fromEnd, sized, create]; omega) rfl] at started
      obtain ⟨ready, waiting⟩ := @placed_pending items
        (fromEnd (placed (fromEnd (sized items ⟨-1, -1, a⟩)) (totalLength items - a) a)) rfl rfl 0 a
      have short : ((blob items).take a).length = a := by
        rw [List.length_take, size]
        omega
      have loaded : loadResourceSynchronously items ⟨-1, -1, a⟩ =
          some ⟨((blob items).take a).length, (blob items).take a⟩ := by
        rw [load_iff wellFormed small started ready waiting]
        · rw [short]
          rfl
        · intro _
          rw [short, List.drop_zero]
      have nodup := (nodup_blobFrom 0 items).1
      have same := take_eq_drop_iff nodup (by rw [length_blobFrom]; omega : a ≤ (blobFrom 0 items).length)
      rw [length_blobFrom] at same
      rw [loaded, Option.some.injEq, SyncResponse.mk.injEq]
      constructor
      · rintro ⟨-, equal⟩
        have := same.mp equal
        omega
      · intro fits
        have equal := same.mpr (by omega)
        exact ⟨congrArg (fun l => ((List.length l : Nat) : Int)) equal, equal⟩
  by_cases next : s = totalLength items + 1
  · -- the offset is -1, which `seek` takes for "no range"
    have short : (totalLength items : Int) - s = -1 := by omega
    have ends : 0 ≤ s := by omega
    have total : 0 ≤ (totalLength items : Int) := by omega
    have once : (sized items ⟨-1, -1, s⟩).seek = some (fromEnd (sized items ⟨-1, -1, s⟩)) := by
      rw [@seek_suffix (sized items ⟨-1, -1, s⟩) ends most total small]
      exact congrArg some (if_pos short)
    have fixed : (fromEnd (sized items ⟨-1, -1, s⟩)).seek =
        some (fromEnd (sized items ⟨-1, -1, s⟩)) := by
      rw [@seek_suffix (fromEnd (sized items ⟨-1, -1, s⟩)) ends most total small]
      exact congrArg some (if_pos short)
    rw [seekTimes, once, Option.bind_some, seekTimes_fixed fixed] at started
    obtain ⟨ready, waiting⟩ := sized_ready items ⟨-1, -1, s⟩
    have all : totalLength items - s.toNat = 0 := by omega
    rw [all, List.drop_zero, load_iff wellFormed small started ready waiting (by simp)]
    change (totalLength items : Int) = _ ↔ _
    rw [size]
    omega
  · have all : totalLength items - s.toNat = 0 := by omega
    rw [all, List.drop_zero]
    by_cases hollow : totalLength items = 0
    · constructor
      · intro loaded
        have := announced (.inr ⟨by omega, hollow⟩) loaded
        omega
      · omega
    · rw [load_overlong_iff wellFormed nonempty (by omega) small (by omega) most]
      constructor
      · intro begins
        exact .inr (.inr (.inr (.inr ⟨by omega, by omega, begins⟩)))
      · rintro (h | h | h | h | h)
        · omega
        · omega
        · omega
        · omega
        · exact h.2.2

end

/-! ## The whole load -/

/-- **A synchronous load serves its range** if and only if the range survives the repeated `seek`.

`doStart` calls `getSizeForNext` once for every item, and each of these calls goes through all of the
items and then seeks: the size of the range is cut again and again. -/
theorem loads_range_iff (icu : Icu) {items : List BlobDataItem}
    (wellFormed : ∀ item ∈ items, item.WellFormed) (small : (totalLength items : Int) ≤ intMax)
    {header : List UChar} {range : ByteRange} (accepted : requestRange icu header = some range) :
    (∀ contents, Served items range contents) ↔ RangeLoads items range := by
  rw [served_iff]
  by_cases empty : items = []
  · subst empty
    have asked : requested range (blob []) = [] := by simp [requested, blob, blobFrom]
    rw [asked]
    exact iff_of_true rfl (.inl rfl)
  cases requestRange_accepted accepted with
  | @suffix s least most =>
    by_cases given : s = -1
    · subst given
      have whole : requested ⟨-1, -1, -1⟩ (blob items) = blob items := by simp [requested]
      rw [whole]
      apply iff_of_true (load_unspecified wellFormed empty small)
      simp [RangeLoads]
    · rw [load_suffix_iff wellFormed empty small given most]
      simp [RangeLoads, given, empty]
  | @bytes first last start most order fits =>
    by_cases open_ : last = -1
    · subst open_
      rw [load_open_iff wellFormed empty small start most]
      simp [RangeLoads, empty, show first ≠ -1 by omega]
    · rw [load_pair_iff wellFormed empty small start (by omega)]
      simp [RangeLoads, empty, open_, show first ≠ -1 by omega]

theorem loads_range_inside :
    (∀ item ∈ [BlobDataItem.data 4 1 3, .file 2 0 none], item.WellFormed) ∧
    requestRange Icu.forASCII (ascii "bytes=1-3") = some ⟨1, 3, -1⟩ ∧
    ∀ contents, Served [.data 4 1 3, .file 2 0 none] ⟨1, 3, -1⟩ contents := by
  have wellFormed : ∀ item ∈ [BlobDataItem.data 4 1 3, .file 2 0 none], item.WellFormed := by decide
  have accepted : requestRange Icu.forASCII (ascii "bytes=1-3") = some ⟨1, 3, -1⟩ := by decide
  have loads : RangeLoads [.data 4 1 3, .file 2 0 none] ⟨1, 3, -1⟩ := by
    simp [RangeLoads, totalLength, BlobDataItem.itemLength]
  exact ⟨wellFormed, accepted, (loads_range_iff Icu.forASCII wellFormed (by decide) accepted).mpr loads⟩

/-- The last byte of two: the second `seek` goes back to the first. -/
theorem last_of_two_not_served :
    requestRange Icu.forASCII (ascii "bytes=-1") = some ⟨-1, -1, 1⟩ ∧
    ¬ ∀ contents, Served [.data 1 0 1, .data 1 0 1] ⟨-1, -1, 1⟩ contents := by
  constructor
  · decide
  · rw [served_iff]
    decide +kernel

end NetRider.Blob
