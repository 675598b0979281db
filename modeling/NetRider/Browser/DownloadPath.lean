import Mathlib
import NetRider.Browser.Tabs
import NetRider.Url.EscapeSequences

/-!
# Where a download is written

The download client takes a name from the response or from its url, and
`decideDestinationWithSuggestedFilename` puts it behind the directory for downloads.
-/

namespace NetRider.Browser

open NetRider.Url

/-! ## The name -/

/-- A url without query and fragment, with the ends of its host and its path. -/
structure DownloadUrl where
  string : List Char
  portEnd : Nat
  pathEnd : Nat
  scheme : 0 < portEnd
  ordered : portEnd ≤ pathEnd
  within : pathEnd ≤ string.length

def reverseFind (string : List Char) (c : Char) : Nat → Option Nat
  | 0 => if string[0]? = some c then some 0 else none
  | index + 1 => if string[index + 1]? = some c then some (index + 1) else reverseFind string c index

/-- The code's `start` is `notFound + 1`, which is 0, where there is no slash. -/
def lastPathComponent (url : DownloadUrl) : List Char :=
  if url.portEnd = url.pathEnd then []
  else
    let last := url.pathEnd - 1
    let last := if url.string[last]? = some '/' then last - 1 else last
    match reverseFind url.string '/' last with
    | none => url.string.take (last + 1)
    | some start =>
      if start < url.portEnd then [] else (url.string.drop (start + 1)).take (last - start)

structure DownloadResponse where
  suggestedFilename : List Char
  url : DownloadUrl

/-- `DownloadClient::didReceiveResponse`. -/
def suggestedFilename (response : DownloadResponse) : List Char :=
  if response.suggestedFilename.isEmpty then
    decodeURLEscapeSequences (lastPathComponent response.url)
  else response.suggestedFilename

/-! ## The path -/

/-- Of `downloadfilename` and the buffer for the path. -/
def pathBufferSize : Nat := 1024

/-- The text of a string as C reads it. -/
def cText (text : List Char) : CString := (utf8 text).takeWhile (· ≠ 0)

/-- What is unlinked and what is returned, unless `sprintf` writes behind a buffer. -/
def decideDestinationWithSuggestedFilename (downloadsdir : CString) (filename : List Char) :
    Option (CString × CString) :=
  let filenameString := cText filename
  if pathBufferSize ≤ filenameString.length then none
  else if pathBufferSize ≤ (downloadsdir ++ filenameString).length then none
  else if pathBufferSize ≤ (cString "file://" ++ downloadsdir ++ filenameString).length then none
  else some (downloadsdir ++ filenameString, cString "file://" ++ downloadsdir ++ filenameString)

def slash : UInt8 := 0x2F
def dot : UInt8 := 0x2E

/-- Only a file of the directory itself is unlinked and written. -/
def StaysInDirectory (downloadsdir : CString) (response : DownloadResponse) : Prop :=
  ∃ name, decideDestinationWithSuggestedFilename downloadsdir (suggestedFilename response) =
      some (downloadsdir ++ name, cString "file://" ++ downloadsdir ++ name) ∧
    slash ∉ name ∧ name ≠ [dot] ∧ name ≠ [dot, dot]

/-! ## What the name is made of -/

/-- The characters of the response's own name, or the characters and escapes of the url's. -/
def nameUnits (response : DownloadResponse) : List TextUnit :=
  if response.suggestedFilename.isEmpty then units (lastPathComponent response.url)
  else response.suggestedFilename.map .character

def endsText : TextUnit → Bool
  | .character c => c = Char.ofNat 0
  | .byte b => b = 0

/-- Up to the first NUL. -/
def readUnits (text : List TextUnit) : List TextUnit := text.takeWhile fun u => !endsText u

def isDot (u : TextUnit) : Bool := u = .character '.' ∨ u = .byte dot

/-- No escaped slash, and not one or two dots, be they escaped or not. -/
def PlainName (text : List TextUnit) : Prop :=
  .byte slash ∉ readUnits text ∧
    ((readUnits text).all isDot → (readUnits text).length ≠ 1 ∧ (readUnits text).length ≠ 2)

instance (text : List TextUnit) : Decidable (PlainName text) :=
  inferInstanceAs (Decidable (_ ∧ _))

/-! ## The last path component -/

theorem reverseFind_none {string : List Char} {c : Char} {index : Nat}
    (none_ : reverseFind string c index = none) : ∀ k ≤ index, string[k]? ≠ some c := by
  induction index with
  | zero =>
    intro k first
    rw [reverseFind] at none_
    split_ifs at none_ with here
    rwa [Nat.le_zero.mp first]
  | succ index ih =>
    intro k before
    rw [reverseFind] at none_
    split_ifs at none_ with here
    obtain earlier | rfl := Nat.le_or_eq_of_le_succ before
    · exact ih none_ k earlier
    · exact here

theorem reverseFind_some {string : List Char} {c : Char} {index start : Nat}
    (found : reverseFind string c index = some start) :
    ∀ k, start < k → k ≤ index → string[k]? ≠ some c := by
  induction index with
  | zero =>
    intro k behind first
    omega
  | succ index ih =>
    intro k behind before
    rw [reverseFind] at found
    split_ifs at found with here
    · obtain rfl := Option.some.inj found
      omega
    · obtain earlier | rfl := Nat.le_or_eq_of_le_succ before
      · exact ih found k behind earlier
      · exact here

theorem slash_not_mem (url : DownloadUrl) : '/' ∉ lastPathComponent url := by
  unfold lastPathComponent
  split_ifs with no_path
  · exact List.not_mem_nil
  dsimp only
  generalize (if url.string[url.pathEnd - 1]? = some '/' then url.pathEnd - 1 - 1
    else url.pathEnd - 1) = last
  intro member
  cases found : reverseFind url.string '/' last with
  | none =>
    rw [found] at member
    obtain ⟨k, at_⟩ := List.mem_iff_getElem?.mp member
    rw [List.getElem?_take] at at_
    split_ifs at at_ with inside
    exact reverseFind_none found k (Nat.le_of_lt_succ inside) at_
  | some start =>
    rw [found] at member
    dsimp only at member
    split_ifs at member with no_slash
    · cases member
    · obtain ⟨k, at_⟩ := List.mem_iff_getElem?.mp member
      rw [List.getElem?_take, List.getElem?_drop] at at_
      split_ifs at at_ with inside
      exact reverseFind_some found _ (by omega) (by omega) at_

/-! ## Bytes and units -/

/-- Up to the first NUL. -/
def readBytes (text : CString) : CString := text.takeWhile (· ≠ 0)

theorem readBytes_other {bytes : CString} (others : ∀ b ∈ bytes, isASCII b = false) (text : CString) :
    readBytes (bytes ++ text) = bytes ++ readBytes text := by
  apply List.takeWhile_append_of_pos
  intro b member
  have other := others b member
  rw [decide_eq_true_eq]
  rintro rfl
  cases other

theorem readBytes_cons (b : UInt8) (text : CString) :
    readBytes (b :: text) = if b = 0 then [] else b :: readBytes text := by
  rw [readBytes, List.takeWhile_cons]
  split_ifs <;> simp_all [readBytes]

theorem mem_readBytes_iff {text text' : CString} (same : SameASCII text text') {b : UInt8}
    (is : isASCII b = true) : b ∈ readBytes text ↔ b ∈ readBytes text' := by
  induction same with
  | nil => rfl
  | ascii _ _ ih =>
    rw [readBytes_cons, readBytes_cons]
    split_ifs
    · rfl
    · rw [List.mem_cons, List.mem_cons, ih]
  | other _ _ others others' _ ih =>
    rw [readBytes_other others, readBytes_other others', List.mem_append, List.mem_append, ih]
    have outside : ∀ {bytes : CString}, (∀ b ∈ bytes, isASCII b = false) → b ∉ bytes := by
      intro bytes others member
      have other := others b member
      rw [is] at other
      cases other
    simp only [outside others, outside others', false_or]

theorem readBytes_eq_iff {text text' word : CString} (same : SameASCII text text')
    (ascii : ∀ b ∈ word, isASCII b = true) : readBytes text = word ↔ readBytes text' = word := by
  induction same generalizing word with
  | nil => rfl
  | ascii _ _ ih =>
    rw [readBytes_cons, readBytes_cons]
    split_ifs
    · rfl
    · cases word with
      | nil => simp
      | cons first word =>
        rw [List.cons.injEq, List.cons.injEq, ih (List.forall_mem_cons.mp ascii).2]
  | other some_ some' others others' _ _ =>
    have outside : ∀ {bytes text : CString}, bytes ≠ [] → (∀ b ∈ bytes, isASCII b = false) →
        readBytes (bytes ++ text) ≠ word := by
      intro bytes text some_ others eq
      obtain ⟨b, bytes, rfl⟩ := List.exists_cons_of_ne_nil some_
      rw [readBytes_other others] at eq
      have is := ascii b (eq ▸ List.mem_cons_self)
      rw [others b List.mem_cons_self] at is
      cases is
    exact iff_of_false (outside some_ others) (outside some' others')

theorem readBytes_unitBytes (text : List TextUnit) :
    readBytes (unitBytes text) = unitBytes (readUnits text) := by
  induction text with
  | nil => rfl
  | cons u text ih =>
    have ends : endsText u = true ↔ 0 ∈ u.bytes := by
      rw [TextUnit.mem_bytes_iff (by decide)]
      cases u <;> simp [endsText]
    rw [unitBytes_cons, readUnits, List.takeWhile_cons]
    cases is : endsText u with
    | true =>
      rw [TextUnit.bytes_of_mem (by decide) (ends.mp is)]
      rfl
    | false =>
      have no_end : ∀ b ∈ u.bytes, decide (b ≠ 0) = true := by
        intro b member
        rw [decide_eq_true_eq]
        rintro rfl
        rw [ends.mpr member] at is
        cases is
      rw [readBytes, List.takeWhile_append_of_pos no_end]
      change _ = unitBytes (u :: readUnits text)
      rw [unitBytes_cons, ← ih]
      rfl

theorem slash_mem_iff {text : List TextUnit} (no_slash : .character '/' ∉ text) :
    slash ∈ unitBytes text ↔ .byte slash ∈ text := by
  rw [unitBytes, List.mem_flatMap]
  constructor
  · rintro ⟨u, member, inside⟩
    obtain rfl | rfl := (TextUnit.mem_bytes_iff (by decide)).mp inside
    · exact absurd member no_slash
    · exact member
  · intro member
    exact ⟨_, member, List.mem_cons_self⟩

theorem isDot_iff {u : TextUnit} : isDot u = true ↔ dot ∈ u.bytes := by
  rw [TextUnit.mem_bytes_iff (by decide), isDot, decide_eq_true_eq]
  rfl

theorem dots_iff {text : List TextUnit} {n : Nat} :
    unitBytes text = List.replicate n dot ↔ text.all isDot = true ∧ text.length = n := by
  induction text generalizing n with
  | nil =>
    cases n with
    | zero => exact iff_of_true rfl ⟨rfl, rfl⟩
    | succ n => exact iff_of_false (List.cons_ne_nil _ _).symm fun both => Nat.succ_ne_zero _ both.2.symm
  | cons u text ih =>
    rw [unitBytes_cons, List.all_cons, Bool.and_eq_true, List.length_cons]
    cases is : isDot u with
    | true =>
      rw [TextUnit.bytes_of_mem (by decide) (isDot_iff.mp is)]
      cases n with
      | zero => exact iff_of_false (List.cons_ne_nil _ _) fun both => Nat.succ_ne_zero _ both.2
      | succ n =>
        rw [List.replicate_succ, List.singleton_append, List.cons.injEq, ih]
        exact ⟨fun both => ⟨⟨rfl, both.2.1⟩, congrArg Nat.succ both.2.2⟩,
          fun both => ⟨rfl, both.1.2, Nat.succ.inj both.2⟩⟩
    | false =>
      refine iff_of_false (fun eq => ?_) fun both => Bool.false_ne_true both.1.1
      obtain ⟨b, bytes, split⟩ := List.exists_cons_of_ne_nil u.bytes_ne_nil
      have member : b ∈ List.replicate n dot := by
        rw [← eq, split]
        exact List.mem_cons_self
      rw [List.eq_of_mem_replicate member] at split
      rw [isDot_iff.mpr (split ▸ List.mem_cons_self)] at is
      cases is

/-! ## The name stays in the directory -/

theorem suggestedFilename_sameASCII (response : DownloadResponse) :
    SameASCII (utf8 (suggestedFilename response)) (unitBytes (nameUnits response)) := by
  unfold suggestedFilename nameUnits
  split_ifs
  · exact decodeURLEscapeSequences_sameASCII _
  · rw [unitBytes, List.flatMap_map]
    exact .refl _

theorem slash_not_mem_nameUnits {response : DownloadResponse}
    (assumed : '/' ∉ response.suggestedFilename) : .character '/' ∉ nameUnits response := by
  intro member
  unfold nameUnits at member
  split_ifs at member
  · exact slash_not_mem _ (mem_of_units member)
  · obtain ⟨c, inName, same⟩ := List.mem_map.mp member
    rw [TextUnit.character.inj same] at inName
    exact assumed inName

theorem plainName_iff {response : DownloadResponse}
    (assumed : '/' ∉ response.suggestedFilename) :
    PlainName (nameUnits response) ↔ slash ∉ cText (suggestedFilename response) ∧
      cText (suggestedFilename response) ≠ [dot] ∧
      cText (suggestedFilename response) ≠ [dot, dot] := by
  have same := suggestedFilename_sameASCII response
  have no_slash : .character '/' ∉ readUnits (nameUnits response) := fun member =>
    slash_not_mem_nameUnits assumed ((List.takeWhile_prefix _).subset member)
  have slashes : slash ∈ cText (suggestedFilename response) ↔
      .byte slash ∈ readUnits (nameUnits response) := by
    rw [← slash_mem_iff no_slash, ← readBytes_unitBytes]
    exact mem_readBytes_iff same (by decide)
  have dots (n : Nat) : cText (suggestedFilename response) = List.replicate n dot ↔
      (readUnits (nameUnits response)).all isDot = true ∧
        (readUnits (nameUnits response)).length = n := by
    rw [← dots_iff, ← readBytes_unitBytes]
    refine readBytes_eq_iff same fun b member => ?_
    rw [List.eq_of_mem_replicate member]
    rfl
  have one : cText (suggestedFilename response) = [dot] ↔ _ := dots 1
  have two : cText (suggestedFilename response) = [dot, dot] ↔ _ := dots 2
  simp only [PlainName, slashes, ne_eq, one, two]
  tauto

/-- **Download destination.** Only a file of the directory is unlinked and written exactly if the
path fits the buffer and the name has no escaped slash and is not one or two dots. -/
theorem stays_in_directory_iff (downloadsdir : CString) (response : DownloadResponse)
    (assumed : '/' ∉ response.suggestedFilename) :
    StaysInDirectory downloadsdir response ↔
      7 + downloadsdir.length + (cText (suggestedFilename response)).length < pathBufferSize ∧
        PlainName (nameUnits response) := by
  rw [plainName_iff assumed, StaysInDirectory, decideDestinationWithSuggestedFilename]
  have prefix_ : (cString "file://").length = 7 := by decide
  generalize cText (suggestedFilename response) = name
  by_cases fits : 7 + downloadsdir.length + name.length < pathBufferSize
  · have short : ¬ pathBufferSize ≤ name.length := by omega
    have path : ¬ pathBufferSize ≤ (downloadsdir ++ name).length := by
      rw [List.length_append]
      omega
    have uri : ¬ pathBufferSize ≤ (cString "file://" ++ downloadsdir ++ name).length := by
      rw [List.length_append, List.length_append, prefix_]
      omega
    rw [if_neg short, if_neg path, if_neg uri]
    constructor
    · rintro ⟨name', same, plain⟩
      obtain rfl : name = name' :=
        List.append_cancel_left (Prod.mk.inj (Option.some.inj same)).1
      exact ⟨fits, plain⟩
    · exact fun both => ⟨name, rfl, both.2⟩
  · refine iff_of_false ?_ fun both => fits both.1
    rintro ⟨name', same, -⟩
    have uri : pathBufferSize ≤ (cString "file://" ++ downloadsdir ++ name).length := by
      rw [List.length_append, List.length_append, prefix_]
      omega
    rw [if_pos uri] at same
    split_ifs at same

/-- The url `http://h/%2e%2e%2fx`, and no name in the response. -/
def escapedSlash : DownloadResponse :=
  ⟨[], "http://h/%2e%2e%2fx".toList, 8, 19, by decide, by decide, by decide⟩

/-- The file that is unlinked and written is not in the directory. -/
theorem escaped_slash_leaves_directory :
    ¬ ∀ (downloadsdir : CString) (response : DownloadResponse), '/' ∉ response.suggestedFilename →
      StaysInDirectory downloadsdir response := by
  intro stays
  obtain ⟨name, same, no_slash, -⟩ := stays (cString "/tmp/") escapedSlash List.not_mem_nil
  have path : decideDestinationWithSuggestedFilename (cString "/tmp/")
      (suggestedFilename escapedSlash) =
      some (cString "/tmp/" ++ cString "../x", cString "file://" ++ cString "/tmp/" ++ cString "../x") := by
    decide
  rw [path] at same
  obtain rfl := List.append_cancel_left (Prod.mk.inj (Option.some.inj same)).1
  exact no_slash (by decide)

/-- The url `http://h/a%20b`. -/
theorem stays_in_directory_blank :
    StaysInDirectory (cString "/tmp/")
      ⟨[], "http://h/a%20b".toList, 8, 14, by decide, by decide, by decide⟩ :=
  (stays_in_directory_iff _ _ List.not_mem_nil).mpr (by decide)

end NetRider.Browser
