import NetRider.Blob.RangeLoads

/-!
# The turns of an asynchronous load
-/

namespace NetRider.Blob

open NetRider.Wtf BlobResourceHandle

section

variable {items : List BlobDataItem} {split : Address → Nat} {h : BlobResourceHandle}
variable {data : List Address}

/-! ## Turns -/

/-- The client gets this data once the event arrives. -/
def Delivers (items : List BlobDataItem) (split : Address → Nat) (h : BlobResourceHandle)
    (waiting : Waiting) (data : List Address) : Prop :=
  ∃ turns, runAsync items split turns h waiting = some data

/-- The client gets this data from `readAsync` on. -/
def Reads (items : List BlobDataItem) (split : Address → Nat) (h : BlobResourceHandle)
    (data : List Address) : Prop :=
  ∃ bytes h' waiting rest, readAsync items h = some (bytes, h', waiting) ∧
    Delivers items split h' waiting rest ∧ data = bytes ++ rest

theorem load_iff_reads {range : ByteRange} (started : getSizeForNext items (create range) = some h) :
    (∃ turns, loadResourceAsynchronously items range split turns = some data) ↔
      Reads items split h data := by
  simp only [loadResourceAsynchronously, started, Option.bind_eq_bind, Option.bind_some,
    Option.bind_eq_some_iff, Prod.exists, Option.some.injEq]
  constructor
  · rintro ⟨turns, bytes, h', waiting, read, rest, ran, rfl⟩
    exact ⟨bytes, h', waiting, rest, read, ⟨turns, ran⟩, rfl⟩
  · rintro ⟨bytes, h', waiting, rest, read, ⟨turns, ran⟩, rfl⟩
    exact ⟨turns, bytes, h', waiting, read, rest, ran, rfl⟩

theorem delivers_nothing : Delivers items split h .nothing data ↔ data = [] := by
  have run : ∀ turns, runAsync items split turns h .nothing = some [] := by
    intro turns
    cases turns <;> rfl
  simp only [Delivers, run, Option.some.injEq, exists_const]
  exact eq_comm

theorem delivers_didOpen : Delivers items split h .didOpen data ↔ Reads items split h data := by
  constructor
  · rintro ⟨turns, ran⟩
    cases turns with
    | zero => cases ran
    | succ turns =>
      simp only [runAsync, Option.bind_eq_bind, Option.bind_eq_some_iff, Prod.exists,
        Option.some.injEq] at ran
      obtain ⟨bytes, h', waiting, read, rest, ran, rfl⟩ := ran
      exact ⟨bytes, h', waiting, rest, read, ⟨turns, ran⟩, rfl⟩
  · rintro ⟨bytes, h', waiting, rest, read, ⟨turns, ran⟩, rfl⟩
    refine ⟨turns + 1, ?_⟩
    simp only [runAsync, read, Option.bind_eq_bind, Option.bind_some, ran]

/-- How many bytes the next read gives. -/
def chunk (split : Address → Nat) (h : BlobResourceHandle) (stream : FileStream)
    (item : BlobDataItem) : Nat :=
  min (min (stream.bytesToRead bufferSize).toNat (item.size - stream.position))
    (max 1 (split (h.readItemCount, stream.position)))

theorem delivers_didRead {stream : FileStream} {item : BlobDataItem}
    (opened : h.fileOpened = some stream) (found : items[h.readItemCount]? = some item) :
    Delivers items split h .didRead data ↔
      ∃ rest, Reads items split ({ h with fileOpened := some (stream.advance (chunk split h stream item))
          }.consumeFile (chunk split h stream item)) rest ∧
        data = bytesAt h.readItemCount stream.position (chunk split h stream item) ++ rest := by
  have answer : didRead items split h = (readAsync items
      ({ h with fileOpened := some (stream.advance (chunk split h stream item))
        }.consumeFile (chunk split h stream item))).map fun after =>
          (bytesAt h.readItemCount stream.position (chunk split h stream item) ++ after.1, after.2) := by
    simp only [didRead, opened, found]
    rfl
  constructor
  · rintro ⟨turns, ran⟩
    cases turns with
    | zero => cases ran
    | succ turns =>
      simp only [runAsync, answer, Option.bind_eq_bind, Option.bind_eq_some_iff,
        Option.map_eq_some_iff, Prod.exists, Option.some.injEq, Prod.mk.injEq] at ran
      obtain ⟨_, h', waiting, ⟨bytes, _, _, read, rfl, rfl, rfl⟩, rest, ran, rfl⟩ := ran
      exact ⟨bytes ++ rest, ⟨bytes, _, _, rest, read, ⟨turns, ran⟩, rfl⟩, by simp⟩
  · rintro ⟨_, ⟨bytes, h', waiting, rest, read, ⟨turns, ran⟩, rfl⟩, rfl⟩
    refine ⟨turns + 1, ?_⟩
    simp only [runAsync, answer, read, Option.map_some, Option.bind_eq_bind, Option.bind_some, ran,
      List.append_assoc]

/-! ## One item -/

theorem reads_done (done : h.totalRemainingSize = 0 ∨ items[h.readItemCount]? = none) :
    Reads items split h data ↔ data = [] := by
  have read : readAsync items h = some ([], h, .nothing) := by
    rw [readAsync]
    split_ifs with zero
    · rfl
    · have past := done.resolve_left zero
      split
      · rfl
      · rename_i found
        rw [past] at found
        cases found
      · rename_i found
        rw [past] at found
        cases found
  simp [Reads, read, delivers_nothing]

/-- How many bytes of a data item are copied. -/
def copySize (h : BlobResourceHandle) (length : Nat) : Int :=
  castInt (if length - h.currentItemReadSize > h.totalRemainingSize then h.totalRemainingSize
    else length - h.currentItemReadSize)

theorem readDataAsync_eq_some {size offset length : Nat} {bytes : List Address} :
    h.readDataAsync size offset length = some bytes ↔ 0 ≤ copySize h length ∧
      (copySize h length = 0 ∨ (0 ≤ h.currentItemReadSize ∧
        h.currentItemReadSize + copySize h length ≤ length ∧ offset + length ≤ size)) ∧
      bytes = bytesAt h.readItemCount (offset + h.currentItemReadSize).toNat
        (copySize h length).toNat := by
  have copied : h.readDataAsync size offset length =
      if 0 ≤ copySize h length ∧ (copySize h length = 0 ∨ ((offset : Int) ≤ offset + h.currentItemReadSize ∧
          (offset : Int) + h.currentItemReadSize + copySize h length ≤ offset + length ∧
          offset + length ≤ size)) then
        some (bytesAt h.readItemCount (offset + h.currentItemReadSize).toNat
          (copySize h length).toNat)
      else none := rfl
  rw [copied]
  split_ifs with inside
  · rw [Option.some.injEq, eq_comm]
    constructor
    · intro same
      exact ⟨inside.1, by omega, same⟩
    · exact fun all => all.2.2
  · constructor
    · simp
    · rintro ⟨least, most, -⟩
      omega

theorem readAsync_data {size offset length : Nat} (more : h.totalRemainingSize ≠ 0)
    (found : items[h.readItemCount]? = some (.data size offset length)) :
    readAsync items h = (h.readDataAsync size offset length).bind fun bytes =>
      (readAsync items (h.consumeItem bytes.length)).map fun (rest, h, waiting) =>
        (bytes ++ rest, { h with currentItemReadSize := 0 }, waiting) := by
  rw [readAsync, if_neg more]
  split
  · rename_i absent
    rw [found] at absent
    cases absent
  · rename_i found'
    rw [found] at found'
    cases found'
    cases h.readDataAsync size offset length <;> rfl
  · rename_i found'
    rw [found] at found'
    cases found'

theorem readAsync_file {size offset : Nat} {length : Option Nat} (more : h.totalRemainingSize ≠ 0)
    (found : items[h.readItemCount]? = some (.file size offset length)) :
    readAsync items h = some ([], h.readFileAsync (.file size offset length)) := by
  rw [readAsync, if_neg more]
  split
  · rename_i absent
    rw [found] at absent
    cases absent
  · rename_i found'
    rw [found] at found'
    cases found'
  · rename_i found'
    rw [found] at found'
    cases found'
    rfl

/-- When no file was open, `readAsync` ends all, or has opened a file. -/
theorem readAsync_rests {h' : BlobResourceHandle} {waiting : Waiting} {bytes : List Address}
    (closed : h.fileOpened = none) (read : readAsync items h = some (bytes, h', waiting)) :
    waiting = .nothing ∨ h'.currentItemReadSize = 0 := by
  fun_induction readAsync items h generalizing bytes h' waiting with
  | case1 =>
    cases read
    exact .inl rfl
  | case2 =>
    cases read
    exact .inl rfl
  | case3 => cases read
  | case4 h more size offset length found bytes' copied ih =>
    obtain ⟨⟨_, _, _⟩, -, same⟩ := Option.map_eq_some_iff.mp read
    cases same
    exact .inr rfl
  | case5 h more size offset length found =>
    simp only [readFileAsync, closed] at read
    cases read
    exact .inr rfl

theorem reads_data {size offset length : Nat} (closed : h.fileOpened = none)
    (more : h.totalRemainingSize ≠ 0)
    (found : items[h.readItemCount]? = some (.data size offset length)) :
    Reads items split h data ↔ ∃ bytes rest, h.readDataAsync size offset length = some bytes ∧
      Reads items split (h.consumeItem bytes.length) rest ∧ data = bytes ++ rest := by
  have same : ∀ (h₁ : BlobResourceHandle) {bytes waiting rest} {h' : BlobResourceHandle},
      h₁.fileOpened = none → readAsync items h₁ = some (bytes, h', waiting) →
      (Delivers items split { h' with currentItemReadSize := 0 } waiting rest ↔
        Delivers items split h' waiting rest) := by
    intro h₁ bytes waiting rest h' closed read
    rcases readAsync_rests closed read with rfl | zero
    · rw [delivers_nothing, delivers_nothing]
    · obtain ⟨_, _, _, _, _, _, _, _, _⟩ := h'
      cases zero
      rfl
  simp only [Reads, readAsync_data more found, Option.bind_eq_some_iff, Option.map_eq_some_iff,
    Prod.exists, Prod.mk.injEq]
  constructor
  · rintro ⟨_, h', waiting, rest, ⟨bytes, copied, bytes', h₁, waiting', read, rfl, rfl, rfl⟩, ends, rfl⟩
    have ends' := (same (h.consumeItem bytes.length) closed read).mp ends
    exact ⟨bytes, bytes' ++ rest, copied, ⟨bytes', h₁, waiting', rest, read, ends', rfl⟩, by simp⟩
  · rintro ⟨bytes, _, copied, ⟨bytes', h₁, waiting, rest, read, ends, rfl⟩, rfl⟩
    have ends' := (same (h.consumeItem bytes.length) closed read).mpr ends
    exact ⟨_, _, _, rest, ⟨bytes, copied, bytes', h₁, waiting, read, rfl, rfl, rfl⟩, ends', by simp⟩

theorem reads_opened {size offset : Nat} {length : Option Nat} {stream : FileStream}
    (opened : h.fileOpened = some stream) (more : h.totalRemainingSize ≠ 0)
    (found : items[h.readItemCount]? = some (.file size offset length)) :
    Reads items split h data ↔ Delivers items split h .didRead data := by
  have waits : h.readFileAsync (.file size offset length) = (h, .didRead) := by
    simp only [readFileAsync, opened]
  simp [Reads, readAsync_file more found, waits]

theorem reads_file {size offset : Nat} {length : Option Nat} (closed : h.fileOpened = none)
    (more : h.totalRemainingSize ≠ 0)
    (found : items[h.readItemCount]? = some (.file size offset length)) :
    Reads items split h data ↔
      Delivers items split (h.readFileAsync (.file size offset length)).1 .didRead data := by
  have first : readAsync items h =
      some ([], (h.readFileAsync (.file size offset length)).1, .didOpen) := by
    rw [readAsync_file more found]
    simp only [readFileAsync, closed]
  have opens : ∃ stream, (h.readFileAsync (.file size offset length)).1.fileOpened = some stream := by
    simp only [readFileAsync, closed]
    exact ⟨_, rfl⟩
  have stays : (h.readFileAsync (.file size offset length)).1.readItemCount = h.readItemCount ∧
      (h.readFileAsync (.file size offset length)).1.totalRemainingSize = h.totalRemainingSize := by
    simp only [readFileAsync, closed]
    exact ⟨rfl, rfl⟩
  obtain ⟨stream, opened⟩ := opens
  have waits : Reads items split h data ↔
      Delivers items split (h.readFileAsync (.file size offset length)).1 .didOpen data := by
    simp [Reads, first]
  rw [waits, delivers_didOpen, reads_opened opened (by rw [stays.2]; exact more)
    (by rw [stays.1]; exact found)]

/-! ## One file -/

theorem chunk_eq {size offset r : Nat} {length : Option Nat} {stream : FileStream}
    (left : stream.remaining = r) (inside : stream.position + r ≤ size) :
    chunk split h stream (.file size offset length) =
      min (min r bufferSize) (max 1 (split (h.readItemCount, stream.position))) := by
  have count : min (stream.bytesToRead bufferSize).toNat (size - stream.position) =
      min r bufferSize := by
    unfold FileStream.bytesToRead
    rw [left]
    have buffer : (bufferSize : Int) ≤ intMax := by decide
    split_ifs with less
    · rw [castInt_eq (by omega) (by omega)]
      omega
    · omega
  simp only [chunk, BlobDataItem.size, count]

/-- A file is read to its end, in whatever chunks. -/
theorem delivers_file {size offset r : Nat} {length : Option Nat} {stream : FileStream}
    (opened : h.fileOpened = some stream)
    (found : items[h.readItemCount]? = some (.file size offset length))
    (left : stream.remaining = r) (inside : stream.position + r ≤ size)
    (within : r ≤ h.totalRemainingSize) (more : h.totalRemainingSize ≠ 0) :
    Delivers items split h .didRead data ↔
      ∃ rest, Reads items split { h with
          fileOpened := none
          readItemCount := h.readItemCount + 1
          totalRemainingSize := h.totalRemainingSize - r } rest ∧
        data = bytesAt h.readItemCount stream.position r ++ rest := by
  induction r using Nat.strong_induction_on generalizing h stream data with
  | _ r ih =>
    rw [delivers_didRead opened found, chunk_eq left inside]
    by_cases ended : r = 0
    · subst ended
      simp [consumeFile]
    · have buffer : 0 < bufferSize := by decide
      generalize count : min (min r bufferSize) (max 1 (split (h.readItemCount, stream.position))) = n
      have least : 0 < n := by omega
      have most : n ≤ r := by omega
      have whole : bytesAt h.readItemCount stream.position r =
          bytesAt h.readItemCount stream.position n ++
            bytesAt h.readItemCount (stream.position + n) (r - n) := by
        rw [← bytesAt_append, Nat.add_sub_cancel' most]
      rw [consumeFile, if_neg (by omega)]
      by_cases last : h.totalRemainingSize = n
      · -- the range ends with these bytes
        obtain rfl : n = r := by omega
        rw [last, Int.sub_self]
        apply exists_congr
        intro rest
        rw [reads_done (.inl rfl), reads_done (.inl rfl)]
      · have sum : h.totalRemainingSize - r =
            h.totalRemainingSize - n - ((r - n : Nat) : Int) := by omega
        have next : ∀ rest, Reads items split { h with
              fileOpened := some (stream.advance n)
              totalRemainingSize := h.totalRemainingSize - n } rest ↔
            ∃ rest', Reads items split { h with
                fileOpened := none
                readItemCount := h.readItemCount + 1
                totalRemainingSize := h.totalRemainingSize - r } rest' ∧
              rest = bytesAt h.readItemCount (stream.position + n) (r - n) ++ rest' := by
          intro rest
          have some_ : h.totalRemainingSize - n ≠ 0 := by omega
          have left' : (stream.advance n).remaining = ((r - n : Nat) : Int) := by
            simp only [FileStream.advance, left]
            omega
          have inside' : (stream.advance n).position + (r - n) ≤ size := by
            simp only [FileStream.advance]
            omega
          rw [sum]
          apply Iff.trans (@reads_opened items split { h with
            fileOpened := some (stream.advance n)
            totalRemainingSize := h.totalRemainingSize - n } _ _ _ _ _ rfl some_ found)
          exact @ih (r - n) (by omega) { h with
            fileOpened := some (stream.advance n)
            totalRemainingSize := h.totalRemainingSize - n } rest _ rfl found left' inside'
            (by simp only; omega) some_
        simp only [next, whole]
        constructor
        · rintro ⟨_, ⟨rest, read, rfl⟩, rfl⟩
          exact ⟨rest, read, by rw [List.append_assoc]⟩
        · rintro ⟨rest, read, rfl⟩
          exact ⟨_, ⟨rest, read, rfl⟩, by rw [List.append_assoc]⟩

/-! ## No way back -/

/-- A byte that the handle has not passed. -/
def Ahead (h : BlobResourceHandle) (address : Address) : Prop :=
  h.readItemCount < address.1 ∨
    (h.readItemCount = address.1 ∧ ∀ stream, h.fileOpened = some stream → stream.position ≤ address.2)

theorem ahead_next {h' : BlobResourceHandle} {address : Address}
    (next : h'.readItemCount = h.readItemCount + 1) (ahead : Ahead h' address) :
    Ahead h address := by
  left
  obtain later | ⟨here, -⟩ := ahead
  · omega
  · omega

/-- The current item is a file. -/
def AtFile (items : List BlobDataItem) (h : BlobResourceHandle) : Prop :=
  ∃ size offset length, items[h.readItemCount]? = some (.file size offset length)

theorem readAsync_ahead {h' : BlobResourceHandle} {bytes : List Address} {waiting : Waiting}
    (sound : h.fileOpened = none ∨ AtFile items h)
    (read : readAsync items h = some (bytes, h', waiting)) :
    (∀ address ∈ bytes, Ahead h address) ∧ (∀ address, Ahead h' address → Ahead h address) ∧
      (waiting = .nothing ∨ AtFile items h') := by
  fun_induction readAsync items h generalizing bytes h' waiting with
  | case1 =>
    cases read
    simp
  | case2 =>
    cases read
    simp
  | case3 => cases read
  | case4 h more size offset length found bytes' copied ih =>
    obtain ⟨⟨rest, h₁, waiting'⟩, read', same⟩ := Option.map_eq_some_iff.mp read
    cases same
    have closed : h.fileOpened = none := by
      apply sound.resolve_right
      rintro ⟨_, _, _, file⟩
      rw [found] at file
      cases file
    obtain ⟨later, behind, ends⟩ := ih (.inl closed) read'
    refine ⟨?_, fun address ahead => ahead_next rfl (behind address ahead), ends⟩
    intro address member
    rcases List.mem_append.mp member with member | member
    · obtain ⟨-, -, rfl⟩ := readDataAsync_eq_some.mp copied
      obtain ⟨item, -⟩ := mem_bytesAt.mp member
      exact .inr ⟨item.symm, by simp [closed]⟩
    · exact ahead_next rfl (later address member)
  | case5 h more size offset length found =>
    have here : (h.readFileAsync (.file size offset length)).1.readItemCount = h.readItemCount := by
      unfold readFileAsync
      split <;> rfl
    simp only [Option.some.injEq, Prod.mk.injEq] at read
    obtain ⟨rfl, rest⟩ := read
    obtain rfl : (h.readFileAsync (.file size offset length)).1 = h' := by rw [rest]
    refine ⟨by simp, ?_, .inr ⟨size, offset, length, by rw [here]; exact found⟩⟩
    intro address ahead
    obtain later | ⟨same, behind⟩ := ahead
    · exact .inl (by omega)
    · refine .inr ⟨by omega, ?_⟩
      intro stream opened
      apply behind
      simp only [readFileAsync, opened]

theorem didRead_ahead {h' : BlobResourceHandle} {bytes : List Address} {waiting : Waiting}
    (file : AtFile items h) (read : didRead items split h = some (bytes, h', waiting)) :
    (∀ address ∈ bytes, Ahead h address) ∧ (∀ address, Ahead h' address → Ahead h address) ∧
      (waiting = .nothing ∨ AtFile items h') := by
  obtain ⟨size, offset, length, found⟩ := file
  cases opened : h.fileOpened with
  | none => simp [didRead, opened] at read
  | some stream =>
    simp only [didRead, opened, found, Option.map_eq_some_iff, Prod.exists, Prod.mk.injEq] at read
    obtain ⟨rest, h₁, waiting', read, rfl, rfl, rfl⟩ := read
    generalize count : min (min (stream.bytesToRead bufferSize).toNat _) _ = n at read
    have sound : ({ h with fileOpened := some (stream.advance n) }.consumeFile n).fileOpened = none ∨
        AtFile items ({ h with fileOpened := some (stream.advance n) }.consumeFile n) := by
      unfold consumeFile
      split_ifs
      · exact .inl rfl
      · exact .inr ⟨size, offset, length, found⟩
    have behind : ∀ address, Ahead ({ h with fileOpened := some (stream.advance n)
        }.consumeFile n) address → Ahead h address := by
      intro address ahead
      unfold consumeFile at ahead
      split_ifs at ahead
      · exact ahead_next rfl ahead
      · refine ahead.imp_right fun ⟨here, behind⟩ => ⟨here, fun stream' opened' => ?_⟩
        have := behind _ rfl
        rw [opened] at opened'
        cases opened'
        simp only [FileStream.advance] at this
        omega
    obtain ⟨later, passed, ends⟩ := readAsync_ahead sound read
    refine ⟨?_, fun address ahead => behind address (passed address ahead), ends⟩
    intro address member
    rcases List.mem_append.mp member with member | member
    · obtain ⟨item, low, -⟩ := mem_bytesAt.mp member
      refine .inr ⟨item.symm, fun stream' opened' => ?_⟩
      rw [opened] at opened'
      cases opened'
      exact low
    · exact behind address (later address member)

theorem delivers_ahead {waiting : Waiting} (sound : waiting = .nothing ∨ AtFile items h)
    (ends : Delivers items split h waiting data) : ∀ address ∈ data, Ahead h address := by
  obtain ⟨turns, ran⟩ := ends
  induction turns generalizing h waiting data with
  | zero =>
    cases waiting with
    | nothing =>
      cases ran
      simp
    | didOpen => cases ran
    | didRead => cases ran
  | succ turns ih =>
    have step : ∀ {bytes rest : List Address} {h' : BlobResourceHandle} {waiting' : Waiting},
        ((∀ address ∈ bytes, Ahead h address) ∧ (∀ address, Ahead h' address → Ahead h address) ∧
          (waiting' = .nothing ∨ AtFile items h')) →
        runAsync items split turns h' waiting' = some rest →
        ∀ address ∈ bytes ++ rest, Ahead h address := by
      rintro bytes rest h' waiting' ⟨first, passed, sound'⟩ ran' address member
      rcases List.mem_append.mp member with member | member
      · exact first address member
      · exact passed address (ih sound' ran' address member)
    cases waiting with
    | nothing =>
      cases ran
      simp
    | didOpen =>
      simp only [runAsync, Option.bind_eq_bind, Option.bind_eq_some_iff, Prod.exists,
        Option.some.injEq] at ran
      obtain ⟨bytes, h', waiting, read, rest, ran, rfl⟩ := ran
      exact step (readAsync_ahead (.inr (sound.resolve_left (by simp))) read) ran
    | didRead =>
      simp only [runAsync, Option.bind_eq_bind, Option.bind_eq_some_iff, Prod.exists,
        Option.some.injEq] at ran
      obtain ⟨bytes, h', waiting, read, rest, ran, rfl⟩ := ran
      exact step (didRead_ahead (sound.resolve_left (by simp)) read) ran

/-- What is read later is in this item or behind it. -/
theorem reads_ahead (closed : h.fileOpened = none) (reads : Reads items split h data)
    {address : Address} (member : address ∈ data) : h.readItemCount ≤ address.1 := by
  obtain ⟨bytes, h', waiting, rest, read, ends, rfl⟩ := reads
  obtain ⟨first, passed, sound⟩ := readAsync_ahead (.inl closed) read
  have ahead : Ahead h address := by
    rcases List.mem_append.mp member with member | member
    · exact first address member
    · exact passed address (delivers_ahead sound ends address member)
  obtain later | ⟨here, -⟩ := ahead
  · omega
  · omega

end

end NetRider.Blob
