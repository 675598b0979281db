import Mathlib
import NetRider.Browser.Tabs

/-!
# History, bookmarks and the settings file

The two arrays of `GUI` with the callbacks that change them, and `writePrefs` and `readPrefs`.

* Texts fit the 1024 bytes they are copied to. `lines` are the lines of the bookmarks window.
* `Fl_Preferences` returns what was stored. The names of the items are numbers in decimal, so they
  are numbers here, and so is the number of items.
* What is written behind the arrays is not modelled, and reading there has no result (`none`).
-/

namespace NetRider.Browser

def maxHistory : Nat := 100

def maxBookmarks : Nat := 512

structure UrlText where
  name : CString
  uri : CString
  deriving DecidableEq

def UrlText.empty : UrlText := ⟨[], []⟩

structure Book where
  history : List UrlText
  bookmarks : List UrlText
  lines : List CString
  language : CString
  startpage : CString

/-! ## The callbacks -/

/-- The double-line graphics character between name and uri, 314 octal. -/
def columnChar : UInt8 := 0xCC

def comma : UInt8 := 0x2C

def UrlText.line (e : UrlText) : CString := e.name ++ columnChar :: e.uri

/-- A line at its first column character. -/
def splitLine (line : CString) : Option UrlText :=
  match line.dropWhile (· ≠ columnChar) with
  | [] => none
  | _ :: uri => some ⟨line.takeWhile (· ≠ columnChar), uri⟩

/-- Entries are pushed down; the first one stays until it is written. -/
def pushDown (entries : List UrlText) : List UrlText := entries.take 1 ++ entries.dropLast

/-- Entries are pushed up. The last one stays: what is cleared is the entry behind it. -/
def pushUp (entries : List UrlText) (index : Nat) : List UrlText :=
  entries.eraseIdx index ++ entries.drop (entries.length - 1)

/-- One round of the outer loop of `cb_sort_bookmark`. -/
def exchange : CString → List CString → CString × List CString
  | first, [] => (first, [])
  | first, line :: lines =>
    if line < first then
      let (least, rest) := exchange line lines
      (least, first :: rest)
    else
      let (least, rest) := exchange first lines
      (least, line :: rest)

def sortLines : Nat → List CString → List CString
  | rounds + 1, first :: lines =>
    let (least, rest) := exchange first lines
    least :: sortLines rounds rest
  | _, lines => lines

/-- Lines without a column character change nothing. -/
def writeBack : List CString → List UrlText → List UrlText
  | line :: lines, e :: entries => (splitLine line).getD e :: writeBack lines entries
  | _, entries => entries

namespace Book

def didReceiveTitleForFrame (b : Book) (title url : CString) : Book :=
  if (b.history.head?.elim [] UrlText.name) = title then b
  else { b with history := (pushDown b.history).set 0 ⟨title, url⟩ }

/-- The page that is shown, with its title. -/
def addPage (b : Book) (title url : CString) : Book :=
  { b with bookmarks := (pushDown b.bookmarks).set 0 ⟨title, url⟩ }

/-- The link of the context menu: its uri, a comma and its title. -/
def addLink (b : Book) (titleUrl : CString) : Book :=
  match titleUrl.dropWhile (· ≠ comma) with
  | [] => { b with bookmarks := pushDown b.bookmarks }
  | _ :: title =>
    { b with bookmarks := (pushDown b.bookmarks).set 0 ⟨title, titleUrl.takeWhile (· ≠ comma)⟩ }

def cbBookmarks (b : Book) : Book :=
  { b with lines := (b.bookmarks.map UrlText.line).takeWhile (1 < ·.length) }

/-- `index` is the selected line, counted from 1. -/
def cbEdittextBook (b : Book) (index : Nat) (name url : CString) : Book :=
  { b with
    bookmarks := b.bookmarks.set (index - 1) ⟨name, url⟩
    lines := b.lines.set (index - 1) (UrlText.line ⟨name, url⟩) }

def cbSortBookmark (b : Book) : Book :=
  let lines := sortLines b.lines.length b.lines
  { b with lines, bookmarks := writeBack (lines.take (maxBookmarks - 1)) b.bookmarks }

def cbDeleteBookmark (b : Book) (index : Nat) : Book :=
  { b with lines := b.lines.eraseIdx (index - 1), bookmarks := pushUp b.bookmarks (index - 1) }

inductive Change
  | title (title url : CString)
  | addPage (title url : CString)
  | addLink (titleUrl : CString)
  | open
  | edit (index : Nat) (name url : CString)
  | sort
  | delete (index : Nat)

/-- A line that is edited or deleted has to be selected. -/
def step (b : Book) : Change → Option Book
  | .title title url => some (b.didReceiveTitleForFrame title url)
  | .addPage title url => some (b.addPage title url)
  | .addLink titleUrl => some (b.addLink titleUrl)
  | .open => some b.cbBookmarks
  | .edit index name url =>
    if 0 < index ∧ index ≤ b.lines.length then some (b.cbEdittextBook index name url) else none
  | .sort => some b.cbSortBookmark
  | .delete index =>
    if 0 < index ∧ index ≤ b.lines.length then some (b.cbDeleteBookmark index) else none

end Book

/-! ## The settings file -/

structure PrefGroup where
  itemCount : Option Nat
  item : Nat → Option CString

structure Prefs where
  language : Option CString
  startpage : Option CString
  history : PrefGroup
  bookmarks : PrefGroup

namespace PrefGroup

def set (group : PrefGroup) (i : Nat) (text : CString) : PrefGroup :=
  { group with item := Function.update group.item i (some text) }

def get (group : PrefGroup) (i : Nat) : CString := (group.item i).getD []

/-- The loop over `n` entries of the history. -/
def writeItems : PrefGroup → Nat → List UrlText → PrefGroup
  | group, _, [] => group
  | group, i, e :: entries => writeItems ((group.set i e.name).set (i + 1) e.uri) (i + 2) entries

/-- Counts the entries up to the first one without uri. -/
def writeHistory (group : PrefGroup) (history : List UrlText) : PrefGroup :=
  let n := (history.takeWhile (·.uri ≠ [])).length
  writeItems { group with itemCount := some (n * 2) } 0 (history.take n)

/-- The loop has no other end than an entry without uri. -/
def writeBookmarks : PrefGroup → Nat → List UrlText → Option PrefGroup
  | _, _, [] => none
  | group, i, e :: entries =>
    if e.uri = [] then some { group with itemCount := some i }
    else writeBookmarks ((group.set i e.name).set (i + 1) e.uri) (i + 2) entries

/-- The loop over `n` items, two for each entry. -/
def readItems (group : PrefGroup) (n : Nat) : Nat → List UrlText → Option (List UrlText)
  | i, [] => if i < n then none else some []
  | i, e :: entries =>
    if i < n then
      (readItems group n (i + 2) entries).map (⟨group.get i, group.get (i + 1)⟩ :: ·)
    else some (e :: entries)

end PrefGroup

namespace Book

/-- The constructor of `GUI`. -/
def fresh : Book :=
  ⟨List.replicate maxHistory .empty, List.replicate maxBookmarks .empty, [], [], []⟩

def writePrefs (b : Book) (prefsWritten : Bool) (prefs : Prefs) : Option Prefs :=
  if prefsWritten then some prefs
  else do
    let bookmarks ← prefs.bookmarks.writeBookmarks 0 b.bookmarks
    some
      { language := some b.language
        startpage := some b.startpage
        history := prefs.history.writeHistory b.history
        bookmarks }

def googleCom : CString := cString "www.google.com"

def readPrefs (b : Book) (prefs : Prefs) : Option Book := do
  let startpage := snprintf 1023 (prefs.startpage.getD googleCom)
  let history ← prefs.history.readItems (prefs.history.itemCount.getD 0) 0 b.history
  let bookmarks ← prefs.bookmarks.readItems (prefs.bookmarks.itemCount.getD 0) 0 b.bookmarks
  some
    { b with
      language := snprintf 128 (prefs.language.getD [])
      startpage := if startpage = [] then googleCom else startpage
      history
      bookmarks }

/-- What is written and read again has the entries of `b`, in order. -/
def Restores (b : Book) (prefs : Prefs) : Prop :=
  ∃ written restored, b.writePrefs false prefs = some written ∧
    fresh.readPrefs written = some restored ∧
    restored.history = b.history ∧ restored.bookmarks = b.bookmarks

end Book

/-! ## Writing and reading again -/

/-- The entries up to the first one without uri. -/
def used (entries : List UrlText) : List UrlText := entries.takeWhile (·.uri ≠ [])

namespace PrefGroup

theorem writeItems_itemCount (group : PrefGroup) (i : Nat) (entries : List UrlText) :
    (group.writeItems i entries).itemCount = group.itemCount := by
  induction entries generalizing group i with
  | nil => rfl
  | cons e entries ih =>
    rw [writeItems, ih]
    rfl

theorem writeItems_before (group : PrefGroup) {i m : Nat} (before : m < i) (entries : List UrlText) :
    (group.writeItems i entries).item m = group.item m := by
  induction entries generalizing group i with
  | nil => rfl
  | cons e entries ih =>
    rw [writeItems, ih _ (by omega)]
    simp only [set]
    rw [Function.update_of_ne (by omega), Function.update_of_ne (by omega)]

/-- A written entry is read again. -/
theorem get_writeItems (group : PrefGroup) (i : Nat) (e : UrlText) (entries : List UrlText) :
    (group.writeItems i (e :: entries)).get i = e.name ∧
      (group.writeItems i (e :: entries)).get (i + 1) = e.uri := by
  simp only [get, writeItems]
  constructor
  · rw [writeItems_before _ (by omega)]
    simp [set]
  · rw [writeItems_before _ (by omega)]
    simp [set]

theorem readItems_writeItems (group : PrefGroup) (i : Nat) (entries free : List UrlText)
    (room : entries.length ≤ free.length) :
    (group.writeItems i entries).readItems (i + 2 * entries.length) i free =
      some (entries ++ free.drop entries.length) := by
  induction entries generalizing group i free with
  | nil =>
    cases free with
    | nil => simp [readItems]
    | cons f free => simp [readItems]
  | cons e entries ih =>
    cases free with
    | nil => simp at room
    | cons f free =>
      obtain ⟨name, uri⟩ := get_writeItems group i e entries
      have rest := ih ((group.set i e.name).set (i + 1) e.uri) (i + 2) free (by simpa using room)
      have count : i + 2 * (e :: entries).length = i + 2 + 2 * entries.length := by
        simp only [List.length_cons]
        omega
      rw [readItems, if_pos (by simp only [List.length_cons]; omega), name, uri, count, writeItems, rest]
      rfl

theorem readItems_itemCount (group : PrefGroup) (count : Option Nat) (n i : Nat)
    (entries : List UrlText) :
    ({ group with itemCount := count } : PrefGroup).readItems n i entries =
      group.readItems n i entries := by
  induction entries generalizing i with
  | nil => rfl
  | cons e entries ih =>
    simp only [readItems, ih]
    rfl

/-- The bookmarks are written up to the first one without uri, if there is one. -/
theorem writeBookmarks_eq (group : PrefGroup) (i : Nat) (entries : List UrlText) :
    group.writeBookmarks i entries = if used entries = entries then none else
      some { group.writeItems i (used entries) with itemCount := some (i + 2 * (used entries).length) } := by
  induction entries generalizing group i with
  | nil => rfl
  | cons e entries ih =>
    by_cases noUri : e.uri = []
    · have stops : used (e :: entries) = [] := by simp [used, noUri]
      rw [writeBookmarks, if_pos noUri, stops, if_neg (by simp)]
      rfl
    · have goesOn : used (e :: entries) = e :: used entries := by simp [used, noUri]
      have count : i + 2 * (e :: used entries).length = i + 2 + 2 * (used entries).length := by
        simp only [List.length_cons]
        omega
      rw [writeBookmarks, if_neg noUri, ih, goesOn, count, writeItems]
      simp

theorem writeHistory_eq (group : PrefGroup) (history : List UrlText) :
    group.writeHistory history =
      writeItems { group with itemCount := some ((used history).length * 2) } 0 (used history) := by
  rw [writeHistory]
  have same : history.take (used history).length = used history :=
    List.prefix_iff_eq_take.mp (List.takeWhile_prefix _) |>.symm
  exact congrArg _ same

theorem read_writeHistory (group : PrefGroup) {history free : List UrlText}
    (room : history.length ≤ free.length) :
    (group.writeHistory history).readItems ((group.writeHistory history).itemCount.getD 0) 0 free =
      some (used history ++ free.drop (used history).length) := by
  have short : (used history).length ≤ free.length :=
    (List.takeWhile_prefix _).length_le.trans room
  have read := readItems_writeItems
    { group with itemCount := some ((used history).length * 2) } 0 _ _ short
  rw [writeHistory_eq, writeItems_itemCount, Option.getD_some]
  rwa [Nat.zero_add, Nat.mul_comm 2] at read

theorem read_writeBookmarks {group written : PrefGroup} {bookmarks free : List UrlText}
    (room : bookmarks.length ≤ free.length)
    (wrote : group.writeBookmarks 0 bookmarks = some written) :
    written.readItems (written.itemCount.getD 0) 0 free =
      some (used bookmarks ++ free.drop (used bookmarks).length) := by
  have short : (used bookmarks).length ≤ free.length :=
    (List.takeWhile_prefix _).length_le.trans room
  rw [writeBookmarks_eq] at wrote
  split_ifs at wrote
  obtain rfl := Option.some.inj wrote
  rw [readItems_itemCount, Option.getD_some]
  exact readItems_writeItems group 0 _ _ short

end PrefGroup

/-- The entries in use come first. -/
def Filled (entries : List UrlText) : Prop :=
  ∃ first rest, entries = first ++ rest ∧ (∀ e ∈ first, e ≠ .empty) ∧ ∀ e ∈ rest, e = .empty

theorem used_uri {entries : List UrlText} : ∀ e ∈ used entries, e.uri ≠ [] := by
  intro e member
  simpa using List.mem_takeWhile_imp member

theorem used_of_filled {first rest : List UrlText} (uris : ∀ e ∈ first, e.uri ≠ [])
    (empty : ∀ e ∈ rest, e = .empty) : used (first ++ rest) = first := by
  rw [used, List.takeWhile_append_of_pos (by simpa using uris)]
  cases rest with
  | nil => simp
  | cons e rest =>
    obtain rfl := empty e List.mem_cons_self
    simp [UrlText.empty]

/-- Nothing is lost just where every entry in use has a uri. -/
theorem restored_iff {entries : List UrlText} {n : Nat} (size : entries.length = n)
    (filled : Filled entries) :
    used entries ++ (List.replicate n UrlText.empty).drop (used entries).length = entries ↔
      ∀ e ∈ entries, e ≠ .empty → e.uri ≠ [] := by
  constructor
  · intro same e member inUse
    rw [← same, List.drop_replicate] at member
    rcases List.mem_append.mp member with kept | lost
    · exact used_uri e kept
    · exact absurd (List.eq_of_mem_replicate lost) inUse
  · intro uris
    obtain ⟨first, rest, rfl, inUse, empty⟩ := filled
    have firstUris : ∀ e ∈ first, e.uri ≠ [] := by
      intro e member
      exact uris e (List.mem_append_left rest member) (inUse e member)
    rw [used_of_filled firstUris empty, List.drop_replicate]
    congr 1
    rw [List.length_append] at size
    have count : rest.length = n - first.length := by omega
    exact (List.eq_replicate_iff.mpr ⟨count, empty⟩).symm

/-- All entries are written just where none of them is free. -/
theorem used_eq_self_iff {entries : List UrlText}
    (uris : ∀ e ∈ entries, e ≠ .empty → e.uri ≠ []) : used entries = entries ↔ .empty ∉ entries := by
  constructor
  · intro same free
    rw [← same] at free
    exact used_uri _ free rfl
  · intro full
    rw [used, List.takeWhile_eq_self_iff]
    intro e member
    have inUse : e ≠ .empty := by
      rintro rfl
      exact full member
    simpa using uris e member inUse

namespace Book

/-! ## The sizes of the arrays -/

structure Sized (b : Book) : Prop where
  history : b.history.length = maxHistory
  bookmarks : b.bookmarks.length = maxBookmarks
  lines : b.lines.length ≤ maxBookmarks

theorem length_pushDown {entries : List UrlText} (some_ : 0 < entries.length) :
    (pushDown entries).length = entries.length := by
  simp only [pushDown, List.length_append, List.length_take, List.length_dropLast]
  omega

theorem length_pushUp {entries : List UrlText} {index : Nat} (inside : index < entries.length) :
    (pushUp entries index).length = entries.length := by
  simp only [pushUp, List.length_append, List.length_eraseIdx_of_lt inside, List.length_drop]
  omega

theorem length_exchange (first : CString) (lines : List CString) :
    (exchange first lines).2.length = lines.length := by
  induction lines generalizing first with
  | nil => rfl
  | cons line lines ih =>
    rw [exchange]
    split_ifs
    · simp [ih]
    · simp [ih]

theorem length_sortLines (rounds : Nat) (lines : List CString) :
    (sortLines rounds lines).length = lines.length := by
  induction rounds generalizing lines with
  | zero => rfl
  | succ rounds ih =>
    cases lines with
    | nil => rfl
    | cons first lines => simp [sortLines, ih, length_exchange]

theorem length_writeBack (lines : List CString) (entries : List UrlText) :
    (writeBack lines entries).length = entries.length := by
  induction lines generalizing entries with
  | nil => simp [writeBack]
  | cons line lines ih =>
    cases entries with
    | nil => rfl
    | cons e entries => simp [writeBack, ih]

theorem step_sized {b b' : Book} (change : Change) (ok : b.Sized) (stepped : b.step change = some b') :
    b'.Sized := by
  have pushedHistory : (pushDown b.history).length = maxHistory :=
    (length_pushDown (ok.history ▸ by decide)).trans ok.history
  have pushed : (pushDown b.bookmarks).length = maxBookmarks :=
    (length_pushDown (ok.bookmarks ▸ by decide)).trans ok.bookmarks
  cases change with
  | title title url =>
    obtain rfl := Option.some.inj stepped
    unfold didReceiveTitleForFrame
    split_ifs
    · exact ok
    · exact { ok with history := (List.length_set ..).trans pushedHistory }
  | addPage title url =>
    obtain rfl := Option.some.inj stepped
    exact { ok with bookmarks := (List.length_set ..).trans pushed }
  | addLink titleUrl =>
    obtain rfl := Option.some.inj stepped
    unfold addLink
    split
    · exact { ok with bookmarks := pushed }
    · exact { ok with bookmarks := (List.length_set ..).trans pushed }
  | «open» =>
    obtain rfl := Option.some.inj stepped
    refine { ok with lines := ?_ }
    apply (List.takeWhile_prefix _).length_le.trans
    rw [List.length_map, ok.bookmarks]
  | edit index name url =>
    simp only [step, Option.ite_none_right_eq_some, Option.some.injEq] at stepped
    obtain ⟨-, rfl⟩ := stepped
    exact
      { ok with
        bookmarks := (List.length_set ..).trans ok.bookmarks
        lines := (List.length_set ..).trans_le ok.lines }
  | sort =>
    obtain rfl := Option.some.inj stepped
    exact
      { ok with
        bookmarks := (length_writeBack ..).trans ok.bookmarks
        lines := (length_sortLines ..).trans_le ok.lines }
  | delete index =>
    simp only [step, Option.ite_none_right_eq_some, Option.some.injEq] at stepped
    obtain ⟨selected, rfl⟩ := stepped
    have lines := ok.lines
    have bookmarks := ok.bookmarks
    exact
      { ok with
        bookmarks := (length_pushUp (by omega)).trans ok.bookmarks
        lines := (List.length_eraseIdx_le ..).trans ok.lines }

theorem fresh_sized : fresh.Sized := by
  constructor
  · exact List.length_replicate
  · exact List.length_replicate
  · exact Nat.zero_le _

/-! ## The round trip -/

theorem writePrefs_eq (b : Book) (prefs : Prefs) :
    b.writePrefs false prefs = (prefs.bookmarks.writeBookmarks 0 b.bookmarks).map fun bookmarks =>
      ⟨some b.language, some b.startpage, prefs.history.writeHistory b.history, bookmarks⟩ := by
  simp only [writePrefs]
  cases prefs.bookmarks.writeBookmarks 0 b.bookmarks with
  | none => rfl
  | some bookmarks => rfl

theorem readPrefs_eq (b : Book) (prefs : Prefs) {history bookmarks : List UrlText}
    (historyRead : prefs.history.readItems (prefs.history.itemCount.getD 0) 0 b.history = some history)
    (bookmarksRead : prefs.bookmarks.readItems (prefs.bookmarks.itemCount.getD 0) 0 b.bookmarks =
      some bookmarks) :
    ∃ restored, b.readPrefs prefs = some restored ∧ restored.history = history ∧
      restored.bookmarks = bookmarks := by
  simp only [readPrefs, historyRead, bookmarksRead, Option.bind_eq_bind, Option.bind_some]
  exact ⟨_, rfl, rfl, rfl⟩

theorem restores_iff {b : Book} (ok : b.Sized) (prefs : Prefs) (history : Filled b.history)
    (bookmarks : Filled b.bookmarks) :
    b.Restores prefs ↔ (∀ e ∈ b.history, e ≠ .empty → e.uri ≠ []) ∧
      (∀ e ∈ b.bookmarks, e ≠ .empty → e.uri ≠ []) ∧ .empty ∈ b.bookmarks := by
  have historyRoom : b.history.length ≤ fresh.history.length :=
    (ok.history.trans fresh_sized.history.symm).le
  have bookmarksRoom : b.bookmarks.length ≤ fresh.bookmarks.length :=
    (ok.bookmarks.trans fresh_sized.bookmarks.symm).le
  have historyRead := PrefGroup.read_writeHistory prefs.history historyRoom
  simp only [Restores, writePrefs_eq, Option.map_eq_some_iff]
  constructor
  · rintro ⟨_, restored, ⟨written, wrote, rfl⟩, read, sameHistory, sameBookmarks⟩
    have bookmarksRead := PrefGroup.read_writeBookmarks bookmarksRoom wrote
    obtain ⟨restored', read', history', bookmarks'⟩ :=
      readPrefs_eq fresh ⟨some b.language, some b.startpage, _, written⟩ historyRead bookmarksRead
    obtain rfl : restored = restored' := Option.some.inj (read.symm.trans read')
    rw [history'] at sameHistory
    rw [bookmarks'] at sameBookmarks
    have uris := (restored_iff ok.bookmarks bookmarks).mp sameBookmarks
    refine ⟨(restored_iff ok.history history).mp sameHistory, uris, ?_⟩
    by_contra full
    rw [PrefGroup.writeBookmarks_eq, if_pos ((used_eq_self_iff uris).mpr full)] at wrote
    cases wrote
  · rintro ⟨historyUris, uris, free⟩
    have stops : used b.bookmarks ≠ b.bookmarks := by
      intro full
      exact (used_eq_self_iff uris).mp full free
    have wrote := PrefGroup.writeBookmarks_eq prefs.bookmarks 0 b.bookmarks
    rw [if_neg stops] at wrote
    have bookmarksRead := PrefGroup.read_writeBookmarks bookmarksRoom wrote
    obtain ⟨restored, read, history', bookmarks'⟩ :=
      readPrefs_eq fresh ⟨some b.language, some b.startpage, _, _⟩ historyRead bookmarksRead
    refine ⟨_, restored, ⟨_, wrote, rfl⟩, read, ?_, ?_⟩
    · rw [history']
      exact (restored_iff ok.history history).mpr historyUris
    · rw [bookmarks']
      exact (restored_iff ok.bookmarks bookmarks).mpr uris

/-- **The settings round trip.** History and bookmarks are restored just where every entry in use has
a uri and a bookmark is free. -/
theorem prefs_round_trip_iff (b : Book) (prefs : Prefs)
    (reached : Lib.Reach step (fun _ _ => True) fresh b)
    (history : Filled b.history) (bookmarks : Filled b.bookmarks) :
    b.Restores prefs ↔ (∀ e ∈ b.history, e ≠ .empty → e.uri ≠ []) ∧
      (∀ e ∈ b.bookmarks, e ≠ .empty → e.uri ≠ []) ∧ .empty ∈ b.bookmarks := by
  have ok : b.Sized := reached.invariant fresh_sized fun _ _ _ ok _ stepped => step_sized _ ok stepped
  exact restores_iff ok prefs history bookmarks

theorem pushDown_replicate (n : Nat) (e : UrlText) :
    pushDown (List.replicate (n + 1) e) = List.replicate (n + 1) e := by
  simp [pushDown, List.replicate_succ]

/-- The bookmarks after the first one was added. -/
theorem addPage_fresh (title url : CString) :
    (fresh.addPage title url).bookmarks = ⟨title, url⟩ :: List.replicate 511 .empty := by
  change (pushDown (List.replicate (511 + 1) UrlText.empty)).set 0 _ = _
  rw [pushDown_replicate, List.replicate_succ, List.set_cons_zero]

theorem filled_replicate (n : Nat) : Filled (List.replicate n .empty) := by
  refine ⟨[], _, rfl, ?_, fun e => List.eq_of_mem_replicate⟩
  intro e member
  cases member

theorem filled_cons {e : UrlText} (inUse : e ≠ .empty) (n : Nat) :
    Filled (e :: List.replicate n .empty) := by
  refine ⟨[e], _, rfl, ?_, fun e => List.eq_of_mem_replicate⟩
  simpa using inUse

def emptyPrefs : Prefs := ⟨none, none, ⟨none, fun _ => none⟩, ⟨none, fun _ => none⟩⟩

def pageA : UrlText := ⟨cString "A", cString "http://a"⟩

/-- One bookmark. -/
theorem prefs_round_trip_one : (fresh.addPage pageA.name pageA.uri).Restores emptyPrefs := by
  have bookmarks := addPage_fresh pageA.name pageA.uri
  have reached : Lib.Reach step (fun _ _ => True) fresh (fresh.addPage pageA.name pageA.uri) :=
    .next (.addPage pageA.name pageA.uri) .start trivial rfl
  apply (prefs_round_trip_iff _ emptyPrefs reached (filled_replicate _) ?_).mpr
  · rw [bookmarks]
    refine ⟨?_, ?_, ?_⟩
    · intro e member inUse
      exact absurd (List.eq_of_mem_replicate member) inUse
    · intro e member inUse
      rcases List.mem_cons.mp member with rfl | free
      · decide
      · exact absurd (List.eq_of_mem_replicate free) inUse
    · exact List.mem_cons_of_mem _ (List.mem_replicate.mpr ⟨by decide, rfl⟩)
  · rw [bookmarks]
    exact filled_cons (by decide) _

/-- A bookmark whose uri is deleted in the bookmarks window is lost. -/
theorem bookmark_without_uri_lost :
    ∃ b, Lib.run step fresh [.addPage pageA.name pageA.uri, .open, .edit 1 pageA.name []] = some b ∧
      Filled b.history ∧ Filled b.bookmarks ∧ ¬ b.Restores emptyPrefs := by
  have added := addPage_fresh pageA.name pageA.uri
  have lines : (fresh.addPage pageA.name pageA.uri).cbBookmarks.lines = [pageA.line] := by
    simp only [cbBookmarks, added, List.map_cons, List.map_replicate]
    rfl
  have selected : 0 < 1 ∧ 1 ≤ (fresh.addPage pageA.name pageA.uri).cbBookmarks.lines.length := by
    rw [lines]
    decide
  have edited : (((fresh.addPage pageA.name pageA.uri).cbBookmarks).cbEdittextBook 1 pageA.name
      []).bookmarks = ⟨pageA.name, []⟩ :: List.replicate 511 .empty := by
    change (fresh.addPage pageA.name pageA.uri).bookmarks.set 0 _ = _
    rw [added, List.set_cons_zero]
  have filled := filled_cons (show (⟨pageA.name, []⟩ : UrlText) ≠ .empty by decide) 511
  rw [← edited] at filled
  refine ⟨_, ?_, filled_replicate _, filled, ?_⟩
  · simp only [Lib.run, step, if_pos selected]
  · intro restores
    have opened : (fresh.addPage pageA.name pageA.uri).cbBookmarks.Sized :=
      step_sized .open (step_sized (.addPage _ _) fresh_sized rfl) rfl
    have stepped : (fresh.addPage pageA.name pageA.uri).cbBookmarks.step (.edit 1 pageA.name []) =
        some (((fresh.addPage pageA.name pageA.uri).cbBookmarks).cbEdittextBook 1 pageA.name []) := by
      rw [step, if_pos selected]
    have ok := step_sized _ opened stepped
    have uris := ((restores_iff ok emptyPrefs (filled_replicate _) filled).mp restores).2.1
    rw [edited] at uris
    exact uris _ List.mem_cons_self (by decide) rfl

end Book

end NetRider.Browser
