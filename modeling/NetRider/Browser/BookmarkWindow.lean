import Mathlib
import NetRider.Browser.Preferences

/-!
# The bookmarks window

The window lists the bookmarks as lines; its buttons sort them and delete the selected one.

* `sort_rightly_iff`: when sorting leaves the bookmarks sorted.
* `delete_not_rightly`: deleting always leaves the array.
-/

namespace NetRider.Browser

/-! ## The exchange sort -/

/-- The least line is moved to the front, the others stay. -/
theorem exchange_perm (first : CString) (lines : List CString) :
    ((exchange first lines).1 :: (exchange first lines).2).Perm (first :: lines) := by
  induction lines generalizing first with
  | nil => exact List.Perm.refl _
  | cons line lines ih =>
    rw [exchange]
    split_ifs with less
    · exact (List.Perm.swap first _ _).trans ((ih line).cons first)
    · exact (List.Perm.swap line _ _).trans (((ih first).cons line).trans (List.Perm.swap first line _))

theorem exchange_least (first : CString) (lines : List CString) :
    (exchange first lines).1 ≤ first ∧ ∀ line ∈ lines, (exchange first lines).1 ≤ line := by
  induction lines generalizing first with
  | nil => exact ⟨List.le_refl first, by simp [exchange]⟩
  | cons line lines ih =>
    rw [exchange]
    split_ifs with less
    · obtain ⟨least, all⟩ := ih line
      exact ⟨List.le_trans least (List.le_of_lt less), List.forall_mem_cons.mpr ⟨least, all⟩⟩
    · obtain ⟨least, all⟩ := ih first
      exact ⟨least, List.forall_mem_cons.mpr ⟨List.le_trans least (List.not_lt.mp less), all⟩⟩

theorem sortLines_perm (rounds : Nat) (lines : List CString) :
    (sortLines rounds lines).Perm lines := by
  induction rounds generalizing lines with
  | zero => cases lines <;> exact List.Perm.refl _
  | succ rounds ih =>
    cases lines with
    | nil => exact List.Perm.refl _
    | cons first lines => exact ((ih _).cons _).trans (exchange_perm first lines)

theorem sortLines_sorted {rounds : Nat} {lines : List CString} (enough : lines.length ≤ rounds) :
    (sortLines rounds lines).Pairwise (· ≤ ·) := by
  induction rounds generalizing lines with
  | zero =>
    obtain rfl := List.length_eq_zero_iff.mp (Nat.le_zero.mp enough)
    exact List.Pairwise.nil
  | succ rounds ih =>
    cases lines with
    | nil => exact List.Pairwise.nil
    | cons first lines =>
      have least := exchange_least first lines
      have perm := exchange_perm first lines
      rw [sortLines, List.pairwise_cons]
      constructor
      · intro line member
        have among : line ∈ (exchange first lines).1 :: (exchange first lines).2 :=
          List.mem_cons_of_mem _ ((sortLines_perm rounds _).mem_iff.mp member)
        rcases List.mem_cons.mp (perm.mem_iff.mp among) with rfl | listed
        · exact least.1
        · exact least.2 line listed
      · apply ih
        rw [Book.length_exchange]
        simpa using enough

/-- A permutation of an image is the image of a permutation. -/
theorem exists_perm_of_map {α β : Type} {f : α → β} {entries : List α} {lines : List β}
    (perm : lines.Perm (entries.map f)) :
    ∃ sorted : List α, sorted.Perm entries ∧ sorted.map f = lines := by
  generalize image : entries.map f = others at perm
  induction perm generalizing entries with
  | nil => exact ⟨[], by rw [List.map_eq_nil_iff.mp image], rfl⟩
  | cons line _ ih =>
    obtain ⟨e, rest, rfl, rfl, rfl⟩ := List.map_eq_cons_iff.mp image
    obtain ⟨sorted, same, eq⟩ := ih rfl
    exact ⟨e :: sorted, same.cons e, by rw [List.map_cons, eq]⟩
  | swap line line' rest =>
    obtain ⟨e, others, rfl, rfl, tail⟩ := List.map_eq_cons_iff.mp image
    obtain ⟨e', rest', rfl, rfl, rfl⟩ := List.map_eq_cons_iff.mp tail
    exact ⟨e' :: e :: rest', List.Perm.swap _ _ _, rfl⟩
  | trans _ _ ih ih' =>
    obtain ⟨between, same', eq'⟩ := ih' image
    obtain ⟨sorted, same, eq⟩ := ih eq'
    exact ⟨sorted, same.trans same', eq⟩

/-! ## Lines and entries -/

theorem splitLine_line (e : UrlText) :
    ∃ split, splitLine e.line = some split ∧ columnChar ∉ split.name ∧
      (columnChar ∉ e.name → split = e) := by
  obtain ⟨name, uri⟩ := e
  induction name with
  | nil => exact ⟨⟨[], uri⟩, by simp [splitLine, UrlText.line], by simp, fun _ => rfl⟩
  | cons c name ih =>
    obtain ⟨split, found, free, same⟩ := ih
    by_cases column : c = columnChar
    · refine ⟨⟨[], name ++ columnChar :: uri⟩, ?_, by simp, ?_⟩
      · simp [splitLine, UrlText.line, column]
      · intro absent
        exact absurd (column ▸ List.mem_cons_self) absent
    · refine ⟨⟨c :: split.name, split.uri⟩, ?_, ?_, ?_⟩
      · simp only [splitLine, UrlText.line, List.cons_append, List.dropWhile_cons,
          List.takeWhile_cons, column, ne_eq, not_false_eq_true, decide_true, if_true] at found ⊢
        cases rest : (name ++ columnChar :: uri).dropWhile (fun c => decide (¬ c = columnChar)) with
        | nil =>
          rw [rest] at found
          cases found
        | cons d uri' =>
          rw [rest] at found
          obtain rfl := Option.some.inj found
          rfl
      · simpa [Ne.symm column] using free
      · intro absent
        have none_there : columnChar ∉ name := fun member => absent (List.mem_cons_of_mem _ member)
        simp [same none_there]

/-- An entry read back from its line. -/
def UrlText.readBack (e : UrlText) : UrlText := (splitLine e.line).getD e

theorem readBack_name (e : UrlText) : columnChar ∉ e.readBack.name := by
  obtain ⟨split, found, free, -⟩ := splitLine_line e
  rwa [UrlText.readBack, found, Option.getD_some]

theorem readBack_eq {e : UrlText} (free : columnChar ∉ e.name) : e.readBack = e := by
  obtain ⟨split, found, -, same⟩ := splitLine_line e
  rw [UrlText.readBack, found, Option.getD_some, same free]

/-- Lines of entries are written back one after the other, and what is behind them stays. -/
theorem writeBack_map {read entries : List UrlText} (room : read.length ≤ entries.length) :
    writeBack (read.map UrlText.line) entries =
      read.map UrlText.readBack ++ entries.drop read.length := by
  induction read generalizing entries with
  | nil => cases entries <;> rfl
  | cons e read ih =>
    cases entries with
    | nil => simp at room
    | cons old entries =>
      obtain ⟨split, found, -, -⟩ := splitLine_line e
      rw [List.map_cons, writeBack, ih (by simpa using room), List.map_cons, List.length_cons,
        List.drop_succ_cons, List.cons_append, UrlText.readBack, found]
      rfl

/-! ## Sorting -/

/-- The entries of an array that come before the first empty one. -/
def inUse (entries : List UrlText) : List UrlText := entries.takeWhile (· ≠ .empty)

theorem inUse_cons_replicate {e : UrlText} (used : e ≠ .empty) (n : Nat) :
    inUse (e :: List.replicate n .empty) = [e] := by
  cases n <;> simp [inUse, used, List.replicate_succ]

theorem one_lt_line_length (e : UrlText) : 1 < e.line.length ↔ e ≠ .empty := by
  obtain ⟨name, uri⟩ := e
  simp only [UrlText.line, UrlText.empty, List.length_append, List.length_cons, ne_eq,
    UrlText.mk.injEq, not_and]
  cases name <;> cases uri <;> simp; omega

namespace Book

/-- The window lists the bookmarks in use. -/
theorem cbBookmarks_lines (b : Book) :
    b.cbBookmarks.lines = (inUse b.bookmarks).map UrlText.line := by
  change (b.bookmarks.map UrlText.line).takeWhile (1 < ·.length) = _
  rw [List.takeWhile_map, inUse]
  congr 2
  funext e
  simp only [Function.comp_apply, one_lt_line_length]

/-- Opening the window and sorting leaves the same entries, ordered by their lines, and behind
them what was there. -/
def SortsRightly (b : Book) : Prop :=
  ∃ sorted, sorted.Perm (inUse b.bookmarks) ∧ (sorted.map UrlText.line).Pairwise (· ≤ ·) ∧
    b.cbBookmarks.cbSortBookmark.bookmarks = sorted ++ b.bookmarks.drop (inUse b.bookmarks).length

/-- The entries whose lines are sorted, as a list of entries. -/
theorem sorted_entries (entries : List UrlText) :
    ∃ sorted : List UrlText, sorted.Perm entries ∧
      (sorted.map UrlText.line).Pairwise (· ≤ ·) ∧
      sortLines (entries.map UrlText.line).length (entries.map UrlText.line) =
        sorted.map UrlText.line := by
  have perm := sortLines_perm (entries.map UrlText.line).length (entries.map UrlText.line)
  have pairwise := sortLines_sorted (Nat.le_refl (entries.map UrlText.line).length)
  obtain ⟨sorted, same, eq⟩ := exists_perm_of_map perm
  exact ⟨sorted, same, eq ▸ pairwise, eq.symm⟩

/-- What `cb_sort_bookmark` writes to the array: one line less than there are bookmarks. -/
theorem sorted_bookmarks {b : Book} (size : b.bookmarks.length = maxBookmarks)
    {sorted : List UrlText} (eq : sortLines ((inUse b.bookmarks).map UrlText.line).length
      ((inUse b.bookmarks).map UrlText.line) = sorted.map UrlText.line) :
    b.cbBookmarks.cbSortBookmark.bookmarks =
      (sorted.take (maxBookmarks - 1)).map UrlText.readBack ++
        b.bookmarks.drop (sorted.take (maxBookmarks - 1)).length := by
  have few : (sorted.take (maxBookmarks - 1)).length ≤ b.bookmarks.length := by
    rw [size, List.length_take]
    omega
  have kept : b.cbBookmarks.bookmarks = b.bookmarks := rfl
  simp only [cbSortBookmark]
  rw [cbBookmarks_lines, eq, kept, ← List.map_take, writeBack_map few]

/-- With a bookmark free every name is read back from its line; with none free the last bookmark
is not written, and has to be the greatest already. -/
def Sortable (b : Book) : Prop :=
  if (inUse b.bookmarks).length < maxBookmarks then
    ∀ e ∈ inUse b.bookmarks, columnChar ∉ e.name
  else
    ∃ others last, b.bookmarks = others ++ [last] ∧ (∀ e ∈ others, columnChar ∉ e.name) ∧
      ∀ e ∈ others, e.line ≤ last.line

theorem inUse_length_le {b : Book} (size : b.bookmarks.length = maxBookmarks) :
    (inUse b.bookmarks).length ≤ maxBookmarks :=
  (List.takeWhile_prefix _).length_le.trans size.le

theorem map_readBack {entries : List UrlText} (free : ∀ e ∈ entries, columnChar ∉ e.name) :
    entries.map UrlText.readBack = entries := by
  conv_rhs => rw [← List.map_id entries]
  apply List.map_congr_left
  intro e member
  exact readBack_eq (free e member)

theorem names_of_map_readBack {entries written : List UrlText}
    (perm : (written.map UrlText.readBack).Perm entries) :
    ∀ e ∈ entries, columnChar ∉ e.name := by
  intro e member
  obtain ⟨from_, -, rfl⟩ := List.mem_map.mp (perm.mem_iff.mpr member)
  exact readBack_name from_

theorem sortsRightly_iff_of_free {b : Book} (size : b.bookmarks.length = maxBookmarks)
    (free : (inUse b.bookmarks).length < maxBookmarks) :
    b.SortsRightly ↔ ∀ e ∈ inUse b.bookmarks, columnChar ∉ e.name := by
  obtain ⟨sorted, perm, pairwise, eq⟩ := sorted_entries (inUse b.bookmarks)
  have written := sorted_bookmarks size eq
  have count := perm.length_eq
  rw [List.take_of_length_le (by omega), count] at written
  constructor
  · rintro ⟨sorted', perm', -, eq'⟩
    rw [written] at eq'
    have same : sorted.map UrlText.readBack = sorted' := List.append_cancel_right eq'
    exact names_of_map_readBack (same ▸ perm')
  · intro names
    have back := map_readBack fun e member => names e (perm.mem_iff.mp member)
    exact ⟨sorted, perm, pairwise, by rw [written, back]⟩

/-- The last of a sorted list is as great as the greatest. -/
theorem take_of_greatest {sorted others : List UrlText} {last : UrlText}
    (perm : sorted.Perm (others ++ [last]))
    (pairwise : (sorted.map UrlText.line).Pairwise (· ≤ ·))
    (greatest : ∀ e ∈ others, e.line ≤ last.line) :
    ((sorted.take others.length).map UrlText.line).Perm (others.map UrlText.line) := by
  rcases List.eq_nil_or_concat' sorted with rfl | ⟨front, top, rfl⟩
  · exact absurd perm.length_eq (by simp)
  have count := perm.length_eq
  simp only [List.length_append, List.length_cons, List.length_nil] at count
  rw [List.take_left' (by omega)]
  have below : top.line ≤ last.line := by
    rcases List.mem_append.mp (perm.mem_iff.mp (List.mem_append_right front List.mem_cons_self))
      with among | is
    · exact greatest top among
    · rw [List.mem_singleton.mp is]
      exact List.le_refl _
  have above : last.line ≤ top.line := by
    rw [List.map_append, List.pairwise_append] at pairwise
    rcases List.mem_append.mp (perm.mem_iff.mpr (List.mem_append_right others List.mem_cons_self))
      with among | is
    · exact pairwise.2.2 _ (List.mem_map_of_mem among) _ List.mem_cons_self
    · rw [List.mem_singleton.mp is]
      exact List.le_refl _
  have lines := perm.map UrlText.line
  rw [List.map_append, List.map_append, List.map_singleton, List.map_singleton,
    List.le_antisymm below above] at lines
  exact (List.perm_append_right_iff _).mp lines

theorem map_readBack_congr {entries entries' : List UrlText}
    (same : entries.map UrlText.line = entries'.map UrlText.line) :
    entries.map UrlText.readBack = entries'.map UrlText.readBack := by
  have by_line (e : UrlText) : e.readBack = (splitLine e.line).getD .empty := by
    obtain ⟨split, found, -, -⟩ := splitLine_line e
    rw [UrlText.readBack, found, Option.getD_some, Option.getD_some]
  have factor (entries : List UrlText) : entries.map UrlText.readBack =
      (entries.map UrlText.line).map fun line => (splitLine line).getD .empty := by
    rw [List.map_map]
    exact List.map_congr_left fun e _ => by_line e
  rw [factor, factor, same]

theorem sortsRightly_iff_of_full {b : Book} (size : b.bookmarks.length = maxBookmarks)
    (full : (inUse b.bookmarks).length = maxBookmarks) :
    b.SortsRightly ↔
      ∃ others last, b.bookmarks = others ++ [last] ∧ (∀ e ∈ others, columnChar ∉ e.name) ∧
        ∀ e ∈ others, e.line ≤ last.line := by
  have all : inUse b.bookmarks = b.bookmarks :=
    (List.takeWhile_prefix _).eq_of_length (full.trans size.symm)
  obtain ⟨sorted, perm, pairwise, eq⟩ := sorted_entries (inUse b.bookmarks)
  have written := sorted_bookmarks size eq
  rw [all] at perm
  rcases List.eq_nil_or_concat' b.bookmarks with none_there | ⟨others, last, split⟩
  · rw [none_there] at size
    exact absurd size (by decide)
  have count : others.length + 1 = maxBookmarks := by
    rw [← size, split, List.length_append]
    rfl
  have length := perm.length_eq
  rw [size] at length
  have short : (sorted.take (maxBookmarks - 1)).length = others.length := by
    rw [List.length_take]
    omega
  rw [short, split, List.drop_left] at written
  rw [SortsRightly, all, List.drop_length]
  simp only [List.append_nil]
  rw [written, split]
  constructor
  · rintro ⟨sorted', perm', pairwise', rfl⟩
    have front := (List.perm_append_right_iff _).mp perm'
    refine ⟨others, last, rfl, names_of_map_readBack front, ?_⟩
    intro e member
    rw [List.map_append, List.pairwise_append] at pairwise'
    exact pairwise'.2.2 _ (List.mem_map_of_mem (front.mem_iff.mpr member)) _ List.mem_cons_self
  · rintro ⟨others', last', same, names, greatest⟩
    obtain ⟨rfl, rfl⟩ := List.append_inj' same rfl |>.imp_right fun eq => (List.cons.inj eq).1
    rw [split] at perm
    have front := take_of_greatest perm pairwise greatest
    rw [show others.length = maxBookmarks - 1 by omega] at front
    obtain ⟨read, order, lines⟩ := exists_perm_of_map front
    have readNames : ∀ e ∈ read, columnChar ∉ e.name :=
      fun e member => names e (order.mem_iff.mp member)
    rw [map_readBack_congr lines.symm, map_readBack readNames]
    refine ⟨_, order.append_right [last], ?_, rfl⟩
    rw [List.map_append, List.pairwise_append, lines, List.map_take]
    refine ⟨pairwise.sublist (List.take_sublist _ _), List.pairwise_singleton _ _, ?_⟩
    intro line listed line' is
    rw [← List.map_take, ← lines] at listed
    obtain ⟨e, member, rfl⟩ := List.mem_map.mp listed
    rw [List.mem_singleton.mp is]
    exact greatest e (order.mem_iff.mp member)

/-- **Sorting.** The bookmarks in use end up sorted exactly if the lines can be split again and
the line that is not written is the last one anyway. -/
theorem sort_rightly_iff {b : Book} (size : b.bookmarks.length = maxBookmarks) :
    b.SortsRightly ↔ b.Sortable := by
  unfold Sortable
  split_ifs with free
  · exact sortsRightly_iff_of_free size free
  · exact sortsRightly_iff_of_full size (le_antisymm (inUse_length_le size) (not_lt.mp free))

/-- A single bookmark. -/
def oneBookmark (e : UrlText) : Book := { fresh with bookmarks := e :: List.replicate 511 .empty }

theorem oneBookmark_length (e : UrlText) : (oneBookmark e).bookmarks.length = maxBookmarks := by
  rw [oneBookmark, List.length_cons, List.length_replicate]
  rfl

theorem sort_rightly_one : (oneBookmark pageA).SortsRightly := by
  apply (sort_rightly_iff (oneBookmark_length pageA)).mpr
  have single : inUse (oneBookmark pageA).bookmarks = [pageA] :=
    inUse_cons_replicate (by decide) 511
  rw [Sortable, single, if_pos (by decide)]
  simp only [List.mem_singleton, forall_eq]
  decide

/-- A name that begins with a combining acute accent. -/
def accented : UrlText := ⟨[columnChar, 0x81], cString "http://a"⟩

theorem accented_name_not_sorted : ¬ (oneBookmark accented).SortsRightly := by
  have single : inUse (oneBookmark accented).bookmarks = [accented] :=
    inUse_cons_replicate (by decide) 511
  rw [sortsRightly_iff_of_free (oneBookmark_length accented) (by rw [single]; decide), single]
  intro names
  exact names accented List.mem_cons_self List.mem_cons_self

/-! ## Deleting -/

/-- The indices in the array that `cb_delete_bookmark` uses, with `line` selected or 0 if no line
is: the loop reads the entry behind each one it writes. -/
def deleteAccesses (line : Nat) : List Int :=
  ((List.range (maxBookmarks - line)).flatMap fun i =>
    [(line : Int) - 1 + i + 1, (line : Int) - 1 + i]) ++ [(maxBookmarks : Int)]

/-- `Fl_Browser::remove` does nothing for line 0. The array loses its first entry then, to the place
before it. -/
def cbDeleteBookmarkAt (b : Book) (line : Nat) : Book :=
  if line = 0 then { b with bookmarks := pushUp b.bookmarks 0 } else b.cbDeleteBookmark line

/-- Only the selected entry is gone, and nothing outside the array is used. -/
def DeletesRightly (b : Book) (line : Nat) : Prop :=
  (b.cbDeleteBookmarkAt line).bookmarks =
      (if line = 0 then b.bookmarks else b.bookmarks.eraseIdx (line - 1) ++ [.empty]) ∧
    ∀ i ∈ deleteAccesses line, 0 ≤ i ∧ i < maxBookmarks

theorem behind_mem_deleteAccesses (line : Nat) : (maxBookmarks : Int) ∈ deleteAccesses line :=
  List.mem_append_right _ List.mem_cons_self

/-- **Deleting.** The entry behind the array is cleared in place of the last one, whatever is
selected. -/
theorem delete_not_rightly (b : Book) (line : Nat) : ¬ b.DeletesRightly line := by
  rintro ⟨-, inside⟩
  exact lt_irrefl _ (inside _ (behind_mem_deleteAccesses line)).2

/-- What happens to the array itself: the last entry stays. -/
theorem delete_bookmarks {b : Book} {line : Nat} (size : b.bookmarks.length = maxBookmarks)
    (selected : 0 < line) :
    (b.cbDeleteBookmarkAt line).bookmarks =
      b.bookmarks.eraseIdx (line - 1) ++ b.bookmarks.drop (maxBookmarks - 1) := by
  rw [cbDeleteBookmarkAt, if_neg (by omega), ← size]
  rfl

theorem delete_one_not_rightly : ¬ (oneBookmark pageA).DeletesRightly 1 := by
  rintro ⟨-, inside⟩
  exact lt_irrefl _ (inside _ (behind_mem_deleteAccesses 1)).2

end Book

end NetRider.Browser
