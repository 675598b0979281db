import Mathlib
import NetRider.Browser.BookmarkWindow

/-!
# Bookmarking a link

The context menu hands `cb_add_bookmark` uri and title in one text, separated by a comma.
-/

namespace NetRider.Browser

/-- `title_url` of `context_menu_cb`. -/
def contextMenuTitleUrl (uri title : CString) : CString := uri ++ comma :: title

theorem pushDown_set {entries : List UrlText} (some_ : 0 < entries.length) (e : UrlText) :
    (pushDown entries).set 0 e = e :: entries.dropLast := by
  cases entries with
  | nil => exact absurd some_ (lt_irrefl 0)
  | cons first rest => rfl

/-- Pushing the entries down changes nothing just where all of them are the same. -/
theorem pushDown_eq_self_iff (entries : List UrlText) :
    pushDown entries = entries ↔ ∀ e ∈ entries, entries.head? = some e := by
  cases entries with
  | nil => simp [pushDown]
  | cons first rest =>
    simp only [pushDown, List.take_succ_cons, List.take_zero, List.singleton_append,
      List.cons.injEq, true_and, List.head?_cons, Option.some.injEq]
    induction rest generalizing first with
    | nil => simp
    | cons second rest ih =>
      rw [List.dropLast_cons_cons, List.cons.injEq, List.forall_mem_cons]
      constructor
      · rintro ⟨rfl, tail⟩
        exact ⟨rfl, (ih first).mp tail⟩
      · rintro ⟨-, all⟩
        obtain rfl := all second List.mem_cons_self
        exact ⟨rfl, (ih first).mpr all⟩

namespace Book

/-- The link is the first bookmark, the others have moved down. -/
def AddsLinkRightly (b : Book) (uri title : CString) : Prop :=
  (b.addLink (contextMenuTitleUrl uri title)).bookmarks = ⟨title, uri⟩ :: b.bookmarks.dropLast

/-- Without a comma `cb_add_bookmark` returns early. -/
def KeepsUnlessStored (b : Book) (titleUrl : CString) : Prop :=
  comma ∉ titleUrl → (b.addLink titleUrl).bookmarks = b.bookmarks

theorem addLink_of_no_comma (b : Book) {titleUrl : CString} (absent : comma ∉ titleUrl) :
    (b.addLink titleUrl).bookmarks = pushDown b.bookmarks := by
  have rest : titleUrl.dropWhile (· ≠ comma) = [] := by
    rw [List.dropWhile_eq_nil_iff]
    intro c member
    exact decide_eq_true fun eq => absent (eq ▸ member)
  rw [addLink, rest]

/-- The text is split at its first comma. -/
theorem addLink_of_comma {b : Book} (some_ : 0 < b.bookmarks.length) {uri : CString}
    (absent : comma ∉ uri) (title : CString) :
    (b.addLink (uri ++ comma :: title)).bookmarks = ⟨title, uri⟩ :: b.bookmarks.dropLast := by
  have passes : ∀ c ∈ uri, decide (c ≠ comma) = true :=
    fun c member => decide_eq_true fun eq => absent (eq ▸ member)
  have rest : (uri ++ comma :: title).dropWhile (· ≠ comma) = comma :: title := by
    rw [List.dropWhile_append_of_pos passes]
    simp
  have first : (uri ++ comma :: title).takeWhile (· ≠ comma) = uri := by
    rw [List.takeWhile_append_of_pos passes]
    simp
  rw [addLink, rest]
  simp only
  rw [first, pushDown_set some_]

theorem addsLinkRightly_iff {b : Book} (some_ : 0 < b.bookmarks.length) (uri title : CString) :
    b.AddsLinkRightly uri title ↔ comma ∉ uri := by
  constructor
  · intro stored member
    obtain ⟨before, after, rfl, absent⟩ := List.eq_append_cons_of_mem member
    rw [AddsLinkRightly, contextMenuTitleUrl, List.append_assoc, List.cons_append,
      addLink_of_comma some_ absent] at stored
    have uri := congrArg UrlText.uri (List.cons.inj stored).1
    simp at uri
  · intro absent
    exact addLink_of_comma some_ absent title

theorem keepsUnlessStored_iff (b : Book) (titleUrl : CString) :
    b.KeepsUnlessStored titleUrl ↔
      comma ∈ titleUrl ∨ ∀ e ∈ b.bookmarks, b.bookmarks.head? = some e := by
  unfold KeepsUnlessStored
  by_cases present : comma ∈ titleUrl
  · simp [present]
  · rw [addLink_of_no_comma b present, pushDown_eq_self_iff]
    simp [present]

/-- **Bookmarking a link.** A link is stored as it is exactly if its uri has no comma; and an early
return leaves the array alone exactly if all its entries are the same. -/
theorem add_link_iff {b : Book} (size : b.bookmarks.length = maxBookmarks)
    (uri title titleUrl : CString) :
    (b.AddsLinkRightly uri title ↔ comma ∉ uri) ∧
      (b.KeepsUnlessStored titleUrl ↔
        comma ∈ titleUrl ∨ ∀ e ∈ b.bookmarks, b.bookmarks.head? = some e) :=
  ⟨addsLinkRightly_iff (size ▸ by decide) uri title, keepsUnlessStored_iff b titleUrl⟩

theorem add_link_one :
    (oneBookmark pageA).AddsLinkRightly (cString "http://b") (cString "B, or not") :=
  (add_link_iff (oneBookmark_length pageA) (cString "http://b") (cString "B, or not")
    []).1.mpr (by decide)

/-- What follows the comma in the uri becomes part of the title. -/
theorem comma_in_uri_not_stored :
    ¬ (oneBookmark pageA).AddsLinkRightly (cString "http://b/1,2") (cString "B") := by
  have some_ : 0 < (oneBookmark pageA).bookmarks.length := oneBookmark_length pageA ▸ by decide
  rw [addsLinkRightly_iff some_]
  decide

end Book

end NetRider.Browser
