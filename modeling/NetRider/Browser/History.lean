import Mathlib
import NetRider.Browser.BookmarkLink

/-!
# The history

`didReceiveTitleForFrame` over a whole sequence of titles, with the sizes of the buffers it
copies titles and urls to.
-/

namespace NetRider.Browser

/-- Of `name`, `uri`, `currenttitle` and the buffer of `get_url`. -/
def textSize : Nat := 1024

/-- A title that arrives, with the url of the page at that time. -/
structure TitleEvent where
  title : CString
  url : CString

namespace Book

/-- The title of the first entry. -/
def newestTitle (b : Book) : CString := b.history.head?.elim [] UrlText.name

/-- `didReceiveTitleForFrame`, unless `sprintf` writes behind a buffer. `get_url` is called only for
a page that is recorded. -/
def receiveTitle (b : Book) (event : TitleEvent) : Option Book :=
  if textSize ≤ event.title.length then none
  else if b.newestTitle ≠ event.title ∧ textSize ≤ event.url.length then none
  else some (b.didReceiveTitleForFrame event.title event.url)

def receiveTitles (b : Book) : List TitleEvent → Option Book
  | [] => some b
  | event :: events => (b.receiveTitle event).bind fun b => receiveTitles b events

end Book

/-- The events whose title is not that of the one recorded before, `newest` if there is one. -/
def recorded : Option CString → List TitleEvent → List UrlText
  | _, [] => []
  | newest, event :: events =>
    if newest = some event.title then recorded newest events
    else ⟨event.title, event.url⟩ :: recorded (some event.title) events

namespace Book

/-- The last recorded events come first, and free entries are empty. -/
def RecordsRightly (events : List TitleEvent) : Prop :=
  ∃ b, fresh.receiveTitles events = some b ∧
    b.history = ((recorded none events).reverse ++ List.replicate maxHistory UrlText.empty).take maxHistory

/-! ## What is recorded -/

/-- Everything that is copied fits. -/
def TitlesFit (newest : CString) (events : List TitleEvent) : Prop :=
  (∀ event ∈ events, event.title.length < textSize) ∧
    ∀ e ∈ recorded (some newest) events, e.uri.length < textSize

theorem didReceiveTitleForFrame_history {b : Book} (size : b.history.length = maxHistory)
    {title : CString} (new : b.newestTitle ≠ title) (url : CString) :
    (b.didReceiveTitleForFrame title url).history = (⟨title, url⟩ :: b.history).take maxHistory := by
  have some_ : 0 < b.history.length := size ▸ by decide
  rw [didReceiveTitleForFrame, show b.history.head?.elim [] UrlText.name = b.newestTitle from rfl,
    if_neg new]
  change (pushDown b.history).set 0 _ = _
  rw [pushDown_set some_, List.dropLast_eq_take, size]
  rfl

theorem titlesFit_cons (newest : CString) (event : TitleEvent) (events : List TitleEvent) :
    TitlesFit newest (event :: events) ↔ event.title.length < textSize ∧
      (newest ≠ event.title → event.url.length < textSize) ∧
      TitlesFit (if newest = event.title then newest else event.title) events := by
  unfold TitlesFit
  rw [recorded, List.forall_mem_cons]
  by_cases same : newest = event.title
  · simp only [same, if_true, ne_eq, not_true, false_implies, true_and]
    exact and_assoc
  · simp only [same, Option.some.injEq, if_false, ne_eq, not_false_eq_true, true_implies,
      List.forall_mem_cons]
    tauto

theorem take_append_take {α : Type} (first second : List α) (n : Nat) :
    (first ++ second.take n).take n = (first ++ second).take n := by
  rw [List.take_append, List.take_append, List.take_take, min_eq_left (Nat.sub_le ..)]

/-- A sequence of titles, from any full history on. -/
theorem receiveTitles_spec {b : Book} (size : b.history.length = maxHistory)
    (events : List TitleEvent) :
    (TitlesFit b.newestTitle events → ∃ b', b.receiveTitles events = some b' ∧
      b'.history =
        ((recorded (some b.newestTitle) events).reverse ++ b.history).take maxHistory) ∧
    (¬ TitlesFit b.newestTitle events → b.receiveTitles events = none) := by
  induction events generalizing b with
  | nil =>
    refine ⟨fun _ => ⟨b, rfl, ?_⟩, fun overflow => absurd ?_ overflow⟩
    · rw [recorded, List.reverse_nil, List.nil_append, List.take_of_length_le size.le]
    · exact ⟨by simp, by simp [recorded]⟩
  | cons event events ih =>
    rw [receiveTitles, receiveTitle, titlesFit_cons]
    by_cases short : event.title.length < textSize
    swap
    · rw [if_pos (not_lt.mp short)]
      exact ⟨fun fits => absurd fits.1 short, fun _ => rfl⟩
    rw [if_neg (not_le.mpr short)]
    by_cases new : b.newestTitle = event.title
    · have same : b.didReceiveTitleForFrame event.title event.url = b := if_pos new
      obtain ⟨fits, overflows⟩ := ih size
      have fine : ¬ (b.newestTitle ≠ event.title ∧ textSize ≤ event.url.length) :=
        fun both => both.1 new
      rw [if_neg fine, same, Option.bind_some, recorded, if_pos (congrArg some new)]
      simp only [short, new, ne_eq, not_true, false_implies, true_and] at fits overflows ⊢
      exact ⟨fits, overflows⟩
    · have first := didReceiveTitleForFrame_history size new event.url
      have size' : (b.didReceiveTitleForFrame event.title event.url).history.length =
          maxHistory := by
        rw [first, List.length_take, List.length_cons, size]
        decide
      have newest : (b.didReceiveTitleForFrame event.title event.url).newestTitle = event.title := by
        rw [newestTitle, first]
        rfl
      obtain ⟨fits, overflows⟩ := ih size'
      rw [newest] at fits overflows
      rw [recorded, if_neg (fun eq => new (Option.some.inj eq))]
      by_cases shortUrl : event.url.length < textSize
      swap
      · have overflow : b.newestTitle ≠ event.title ∧ textSize ≤ event.url.length :=
          ⟨new, not_lt.mp shortUrl⟩
        rw [if_pos overflow]
        exact ⟨fun all => absurd (all.2.1 new) shortUrl, fun _ => rfl⟩
      have fine : ¬ (b.newestTitle ≠ event.title ∧ textSize ≤ event.url.length) :=
        fun both => absurd shortUrl (not_lt.mpr both.2)
      rw [if_neg fine, Option.bind_some]
      simp only [short, shortUrl, new, if_false, ne_eq, not_false_eq_true, true_implies,
        true_and]
      refine ⟨?_, overflows⟩
      intro all
      obtain ⟨b', run, history⟩ := fits all
      refine ⟨b', run, ?_⟩
      rw [history, first, List.reverse_cons, List.append_assoc, List.singleton_append]
      exact take_append_take _ _ _

theorem recorded_none {event : TitleEvent} (titled : event.title ≠ []) (events : List TitleEvent) :
    recorded none (event :: events) = recorded (some []) (event :: events) := by
  have new : ¬ some [] = some event.title := fun eq => titled (Option.some.inj eq).symm
  rw [recorded, recorded, if_neg new, if_neg (by simp)]

/-- An entry behind others and in front of the free ones. -/
theorem take_before_free (entries : List UrlText) (entry : UrlText) :
    (entries ++ List.replicate maxHistory UrlText.empty).take maxHistory =
        (entries ++ entry :: List.replicate maxHistory UrlText.empty).take maxHistory ↔
      entry = UrlText.empty ∨ maxHistory ≤ entries.length := by
  rw [List.take_append, List.take_append, List.append_cancel_left_eq]
  by_cases full : maxHistory ≤ entries.length
  · simp [Nat.sub_eq_zero_of_le full, full]
  · obtain ⟨k, room⟩ : ∃ k, maxHistory - entries.length = k + 1 :=
      ⟨maxHistory - entries.length - 1, by omega⟩
    have free : ∀ n, (List.replicate maxHistory UrlText.empty).take (n + 1) =
        UrlText.empty :: (List.replicate (maxHistory - 1) UrlText.empty).take n := by
      intro n
      rfl
    have fewer : k ≤ maxHistory - 1 := by omega
    rw [room, free, List.take_succ_cons, List.cons.injEq, List.take_replicate, List.take_replicate,
      min_eq_left fewer, min_eq_left (fewer.trans (Nat.sub_le ..))]
    simp only [full, or_false, and_true]
    exact eq_comm

/-- **History.** The history holds the last recorded titles exactly if all that is copied fits
and a first event without title has no url or has been pushed out by `MAXHISTORY` others. -/
theorem records_rightly_iff (events : List TitleEvent) :
    RecordsRightly events ↔ TitlesFit [] events ∧
      ∀ url rest, events = ⟨[], url⟩ :: rest →
        url = [] ∨ maxHistory ≤ (recorded (some []) rest).length := by
  have size : fresh.history.length = maxHistory := List.length_replicate
  obtain ⟨runs, overflows⟩ := receiveTitles_spec size events
  have newest : fresh.newestTitle = [] := rfl
  rw [newest] at runs overflows
  by_cases fits : TitlesFit [] events
  swap
  · refine ⟨fun right => ?_, fun both => absurd both.1 fits⟩
    obtain ⟨b, run, -⟩ := right
    rw [overflows fits] at run
    contradiction
  obtain ⟨b, run, history⟩ := runs fits
  have ends_in : RecordsRightly events ↔ b.history =
      ((recorded none events).reverse ++
        List.replicate maxHistory UrlText.empty).take maxHistory := by
    refine ⟨fun right => ?_, fun eq => ⟨b, run, eq⟩⟩
    obtain ⟨b', run', eq⟩ := right
    rw [run] at run'
    exact Option.some.inj run' ▸ eq
  rw [ends_in, history]
  simp only [fits, true_and]
  have free : fresh.history = List.replicate maxHistory UrlText.empty := rfl
  rw [free]
  cases events with
  | nil => simp [recorded]
  | cons event events =>
    by_cases titled : event.title = []
    · obtain ⟨title, url⟩ := event
      subst titled
      rw [recorded, if_pos rfl, recorded, if_neg (by simp), List.reverse_cons, List.append_assoc,
        List.singleton_append, take_before_free, List.length_reverse]
      simp [UrlText.empty]
    · rw [recorded_none titled]
      refine iff_of_true rfl ?_
      intro url rest eq
      rw [(List.cons.inj eq).1] at titled
      exact absurd rfl titled

/-- The first page has no title. -/
theorem untitled_page_not_recorded : ¬ RecordsRightly [⟨[], cString "http://a"⟩] := by
  rw [records_rightly_iff]
  intro both
  have pushed_out := both.2 _ _ rfl
  exact absurd pushed_out (by simp [recorded, maxHistory, cString])

end Book

end NetRider.Browser
