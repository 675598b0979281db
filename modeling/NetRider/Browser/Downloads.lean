import Mathlib
import NetRider.Browser.Tabs

/-!
# Downloads

The callbacks of `WKContextDownloadClient`. All they know of a download is in the window of the tab
that is current when they are called.

* The counter of bytes is exact. What a new window holds is not initialised; a `download_ref` that
  was not set is `none`.
* `Transfer` is what has happened to a download so far. It is no part of the program.
-/

namespace NetRider.Browser

abbrev Download := Nat

/-- The fields of `HtmlBrowser` for downloads. -/
structure HtmlBrowser where
  downloadfilename : CString
  bytesdownloaded : Nat
  downloadRef : Option Download

/-- What is written to the status bar, and to whom `WKDownloadCancel` is sent. -/
inductive Status
  | starting
  | downloading (filename : CString) (bytes : Nat)
  | completed (filename : CString) (bytes : Nat)
  | failed (filename : CString) (errorcode : Int) (error : CString)
  | canceled (filename : CString) (bytes : Nat)
  deriving DecidableEq

structure Gui where
  currenttab : Nat
  browserwin : Nat → HtmlBrowser

namespace Gui

variable (gui : Gui)

def current : HtmlBrowser := gui.browserwin gui.currenttab

def setCurrent (browser : HtmlBrowser) : Gui :=
  { gui with browserwin := Function.update gui.browserwin gui.currenttab browser }

def didStart (download : Download) : Gui × Status :=
  (gui.setCurrent { gui.current with bytesdownloaded := 0, downloadRef := some download }, .starting)

def didReceiveData (length : Nat) : Gui × Status :=
  let gui := gui.setCurrent
    { gui.current with bytesdownloaded := gui.current.bytesdownloaded + length }
  (gui, .downloading gui.current.downloadfilename gui.current.bytesdownloaded)

def decideDestinationWithSuggestedFilename (filename : CString) : Gui :=
  gui.setCurrent { gui.current with downloadfilename := filename }

def didFinish : Status := .completed gui.current.downloadfilename gui.current.bytesdownloaded

def didFail (errorcode : Int) (error : CString) : Status :=
  .failed gui.current.downloadfilename errorcode
    (if errorcode = 401 then cString "Cannot write file to disk!" else error)

def didCancel : Status := .canceled gui.current.downloadfilename gui.current.bytesdownloaded

/-- The download that `WKDownloadCancel` is called for. -/
def cbStopXfer : Option Download := gui.current.downloadRef

end Gui

/-! ## Interleavings -/

inductive Phase
  | idle
  | started
  | named
  | ended
  deriving DecidableEq

/-- A download: the tab it was started from, the name chosen for it and what it received. -/
structure Transfer where
  phase : Phase
  origin : Nat
  name : CString
  received : Nat

inductive Callback
  | didStart (download : Download) (origin : Nat)
  | decideDestination (download : Download) (filename : CString)
  | didReceiveData (download : Download) (length : Nat)
  | didFinish (download : Download)
  | didFail (download : Download) (errorcode : Int) (error : CString)
  | didCancel (download : Download)
  | switchTab (tab : Nat)
  | stopXfer

structure World where
  gui : Gui
  transfers : Download → Transfer
  reports : List (Download × Status)
  stops : List (Nat × Option Download)

namespace World

def start (filenames : Nat → CString) (counts : Nat → Nat) (tab : Nat) : World :=
  { gui := ⟨tab, fun tab => ⟨filenames tab, counts tab, none⟩⟩
    transfers := fun _ => ⟨.idle, 0, [], 0⟩
    reports := []
    stops := [] }

def setTransfer (w : World) (d : Download) (transfer : Transfer) : World :=
  { w with transfers := Function.update w.transfers d transfer }

@[simp] theorem setTransfer_self (w : World) (d : Download) (transfer : Transfer) :
    (w.setTransfer d transfer).transfers d = transfer :=
  Function.update_self ..

def report (w : World) (d : Download) (status : Status) : World :=
  { w with reports := w.reports ++ [(d, status)] }

/-- The callbacks of one download come in order. -/
def step (w : World) : Callback → Option World
  | .didStart d origin =>
    if (w.transfers d).phase = .idle then
      let (gui, status) := w.gui.didStart d
      some (({ w with gui }.setTransfer d ⟨.started, origin, [], 0⟩).report d status)
    else none
  | .decideDestination d filename =>
    if (w.transfers d).phase = .started then
      some ({ w with gui := w.gui.decideDestinationWithSuggestedFilename filename }.setTransfer d
        { w.transfers d with phase := .named, name := filename })
    else none
  | .didReceiveData d length =>
    if (w.transfers d).phase = .named then
      let (gui, status) := w.gui.didReceiveData length
      some (({ w with gui }.setTransfer d
        { w.transfers d with received := (w.transfers d).received + length }).report d status)
    else none
  | .didFinish d =>
    if (w.transfers d).phase = .named then
      some ((w.setTransfer d { w.transfers d with phase := .ended }).report d w.gui.didFinish)
    else none
  | .didFail d errorcode error =>
    if (w.transfers d).phase = .named then
      some ((w.setTransfer d { w.transfers d with phase := .ended }).report d
        (w.gui.didFail errorcode error))
    else none
  | .didCancel d =>
    if (w.transfers d).phase = .named then
      some ((w.setTransfer d { w.transfers d with phase := .ended }).report d w.gui.didCancel)
    else none
  | .switchTab tab => some { w with gui := { w.gui with currenttab := tab } }
  | .stopXfer => some { w with stops := w.stops ++ [(w.gui.currenttab, w.gui.cbStopXfer)] }

/-- The name and the count at the end of a download are its own. -/
def Attributed (transfer : Transfer) : Status → Prop
  | .completed filename bytes | .canceled filename bytes =>
    filename = transfer.name ∧ bytes = transfer.received
  | _ => True

/-- Behind `didStart`, a download is called back while it is the last one that started in the
current tab. -/
def OwnsTab (w : World) : Callback → Prop
  | .decideDestination d _ | .didReceiveData d _ | .didFinish d | .didCancel d =>
    w.gui.current.downloadRef = some d
  | _ => True

/-- A download starts while its tab is current, and is stopped in a tab where one has started. -/
def StartsHere (w : World) : Callback → Prop
  | .didStart _ origin => origin = w.gui.currenttab
  | .stopXfer => w.gui.current.downloadRef ≠ none
  | _ => True

instance (w : World) : DecidablePred w.OwnsTab
  | .decideDestination d _ | .didReceiveData d _ | .didFinish d | .didCancel d =>
    inferInstanceAs (Decidable (w.gui.current.downloadRef = some d))
  | .didStart _ _ | .didFail _ _ _ | .switchTab _ | .stopXfer => isTrue trivial

instance (w : World) : DecidablePred w.StartsHere
  | .didStart _ origin => inferInstanceAs (Decidable (origin = w.gui.currenttab))
  | .stopXfer => inferInstanceAs (Decidable (w.gui.current.downloadRef ≠ none))
  | .decideDestination _ _ | .didReceiveData _ _ | .didFinish _ | .didFail _ _ _ | .didCancel _
  | .switchTab _ => isTrue trivial

/-! ## Reports -/

/-- A window that a download owns shows its name and its count. -/
structure Shows (browser : HtmlBrowser) (transfer : Transfer) : Prop where
  begun : transfer.phase ≠ .idle
  name : transfer.phase ≠ .started → browser.downloadfilename = transfer.name
  received : browser.bytesdownloaded = transfer.received

/-- `Attributed`, and the download has ended. -/
def Settled (transfer : Transfer) : Status → Prop
  | .completed filename bytes | .canceled filename bytes =>
    transfer.phase = .ended ∧ filename = transfer.name ∧ bytes = transfer.received
  | _ => True

theorem Settled.attributed {transfer : Transfer} {status : Status} (settled : Settled transfer status) :
    Attributed transfer status := by
  cases status with
  | completed | canceled => exact settled.2
  | starting | downloading | failed => trivial

theorem Settled.of_unended {transfer : Transfer} {status : Status} (settled : Settled transfer status)
    (unended : transfer.phase ≠ .ended) (transfer' : Transfer) : Settled transfer' status := by
  cases status with
  | completed | canceled => exact absurd settled.1 unended
  | starting | downloading | failed => trivial

structure Owned (w : World) : Prop where
  shows : ∀ tab d, (w.gui.browserwin tab).downloadRef = some d →
    Shows (w.gui.browserwin tab) (w.transfers d)
  alone : ∀ tab tab' d, (w.gui.browserwin tab).downloadRef = some d →
    (w.gui.browserwin tab').downloadRef = some d → tab = tab'
  reports : ∀ report ∈ w.reports, Settled (w.transfers report.1) report.2

theorem settled_setTransfer {w : World} (ok : w.Owned) {d : Download}
    (unended : (w.transfers d).phase ≠ .ended) (transfer : Transfer) :
    ∀ report ∈ w.reports, Settled ((w.setTransfer d transfer).transfers report.1) report.2 := by
  intro report member
  have settled := ok.reports report member
  by_cases same : report.1 = d
  · rw [same] at settled
    exact settled.of_unended unended _
  · simp only [setTransfer, Function.update_of_ne same]
    exact settled

/-- The current tab is, or becomes, the tab of the download. -/
theorem Owned.advance {w : World} (ok : w.Owned) {d : Download} {browser : HtmlBrowser}
    {transfer : Transfer} (unended : (w.transfers d).phase ≠ .ended)
    (others : ∀ tab, (w.gui.browserwin tab).downloadRef = some d → tab = w.gui.currenttab)
    (ref : browser.downloadRef = some d) (shows : Shows browser transfer) :
    Owned ({ w with gui := w.gui.setCurrent browser }.setTransfer d transfer) := by
  constructor
  · intro tab e owner
    simp only [setTransfer, Gui.setCurrent] at owner ⊢
    by_cases here : tab = w.gui.currenttab
    · subst here
      rw [Function.update_self] at owner ⊢
      obtain rfl := Option.some.inj (ref.symm.trans owner)
      rwa [Function.update_self]
    · rw [Function.update_of_ne here] at owner ⊢
      have other : e ≠ d := by
        rintro rfl
        exact here (others tab owner)
      rw [Function.update_of_ne other]
      exact ok.shows tab e owner
  · have place : ∀ tab e, (Function.update w.gui.browserwin w.gui.currenttab browser tab).downloadRef =
        some e → (w.gui.browserwin tab).downloadRef = some e ∧ e ≠ d ∨
          tab = w.gui.currenttab ∧ e = d := by
      intro tab e owner
      by_cases here : tab = w.gui.currenttab
      · subst here
        rw [Function.update_self, ref] at owner
        exact .inr ⟨rfl, (Option.some.inj owner).symm⟩
      · rw [Function.update_of_ne here] at owner
        refine .inl ⟨owner, ?_⟩
        rintro rfl
        exact here (others tab owner)
    intro tab tab' e owner owner'
    rcases place tab e owner with ⟨old, other⟩ | ⟨rfl, rfl⟩
    · rcases place tab' e owner' with ⟨old', -⟩ | ⟨-, same⟩
      · exact ok.alone tab tab' e old old'
      · exact absurd same other
    · rcases place tab' e owner' with ⟨-, other⟩ | ⟨rfl, -⟩
      · exact absurd rfl other
      · rfl
  · exact settled_setTransfer ok unended transfer

/-- The end of a download changes no window. -/
theorem Owned.ended {w : World} (ok : w.Owned) {d : Download} (named : (w.transfers d).phase = .named) :
    Owned (w.setTransfer d { w.transfers d with phase := .ended }) := by
  constructor
  · intro tab e owner
    have shows := ok.shows tab e owner
    simp only [setTransfer]
    by_cases same : e = d
    · subst same
      rw [Function.update_self]
      refine ⟨by simp, fun _ => shows.name (by simp [named]), shows.received⟩
    · rwa [Function.update_of_ne same]
  · exact ok.alone
  · exact settled_setTransfer ok (by simp [named]) _

theorem Owned.report {w : World} (ok : w.Owned) {d : Download} {status : Status}
    (settled : Settled (w.transfers d) status) : Owned (w.report d status) :=
  { ok with
    reports := List.forall_mem_append.mpr ⟨ok.reports, List.forall_mem_singleton.mpr settled⟩ }

theorem Owned.finish {w : World} (ok : w.Owned) {d : Download} (named : (w.transfers d).phase = .named)
    (owner : w.gui.current.downloadRef = some d) :
    w.gui.current.downloadfilename = (w.transfers d).name ∧
      w.gui.current.bytesdownloaded = (w.transfers d).received := by
  have shows := ok.shows _ _ owner
  exact ⟨shows.name (by simp [named]), shows.received⟩

theorem step_owned {w w' : World} {callback : Callback} (ok : w.Owned) (own : w.OwnsTab callback)
    (stepped : w.step callback = some w') : w'.Owned := by
  cases callback with
  | didStart d origin =>
    simp only [step, Option.ite_none_right_eq_some, Option.some.injEq] at stepped
    obtain ⟨idle, rfl⟩ := stepped
    apply Owned.report
    · apply ok.advance
      · simp [idle]
      · intro tab owner
        exact absurd idle (ok.shows tab d owner).begun
      · rfl
      · exact ⟨by simp, by simp, rfl⟩
    · trivial
  | decideDestination d filename =>
    simp only [step, Option.ite_none_right_eq_some, Option.some.injEq] at stepped
    obtain ⟨started, rfl⟩ := stepped
    apply ok.advance
    · simp [started]
    · intro tab owner
      exact ok.alone tab _ d owner own
    · exact own
    · exact ⟨by simp, fun _ => rfl, (ok.shows _ d own).received⟩
  | didReceiveData d length =>
    simp only [step, Option.ite_none_right_eq_some, Option.some.injEq] at stepped
    obtain ⟨named, rfl⟩ := stepped
    have shows := ok.shows _ d own
    apply Owned.report
    · apply ok.advance
      · simp [named]
      · intro tab owner
        exact ok.alone tab _ d owner own
      · exact own
      · refine ⟨shows.begun, shows.name, ?_⟩
        exact congrArg (· + length) shows.received
    · trivial
  | didFinish d =>
    simp only [step, Option.ite_none_right_eq_some, Option.some.injEq] at stepped
    obtain ⟨named, rfl⟩ := stepped
    apply (ok.ended named).report
    rw [setTransfer_self]
    exact ⟨rfl, ok.finish named own⟩
  | didFail d errorcode error =>
    simp only [step, Option.ite_none_right_eq_some, Option.some.injEq] at stepped
    obtain ⟨named, rfl⟩ := stepped
    apply (ok.ended named).report
    trivial
  | didCancel d =>
    simp only [step, Option.ite_none_right_eq_some, Option.some.injEq] at stepped
    obtain ⟨named, rfl⟩ := stepped
    apply (ok.ended named).report
    rw [setTransfer_self]
    exact ⟨rfl, ok.finish named own⟩
  | switchTab tab =>
    obtain rfl := Option.some.inj stepped
    exact { ok with }
  | stopXfer =>
    obtain rfl := Option.some.inj stepped
    exact { ok with }

theorem start_owned (filenames : Nat → CString) (counts : Nat → Nat) (tab : Nat) :
    (start filenames counts tab).Owned := by
  constructor
  · intro tab d owner
    cases owner
  · intro tab tab' d owner
    cases owner
  · intro report member
    cases member

/-! ## Stopping a download -/

structure StopsOwn (w : World) : Prop where
  began : ∀ tab d, (w.gui.browserwin tab).downloadRef = some d →
    (w.transfers d).phase ≠ .idle ∧ (w.transfers d).origin = tab
  stops : ∀ stop ∈ w.stops, ∃ d, stop.2 = some d ∧ (w.transfers d).phase ≠ .idle ∧
    (w.transfers d).origin = stop.1

theorem setCurrent_ref {gui : Gui} {browser : HtmlBrowser}
    (same : browser.downloadRef = gui.current.downloadRef) (tab : Nat) :
    ((gui.setCurrent browser).browserwin tab).downloadRef = (gui.browserwin tab).downloadRef := by
  simp only [Gui.setCurrent]
  by_cases here : tab = gui.currenttab
  · subst here
    rw [Function.update_self]
    exact same
  · rw [Function.update_of_ne here]

/-- A callback behind `didStart` changes neither where a download began nor which one a window
refers to. -/
theorem StopsOwn.transfer {w : World} (ok : w.StopsOwn) {gui : Gui}
    (refs : ∀ tab, (gui.browserwin tab).downloadRef = (w.gui.browserwin tab).downloadRef)
    {d : Download} {transfer : Transfer} (begun : transfer.phase ≠ .idle)
    (origin : transfer.origin = (w.transfers d).origin) :
    StopsOwn ({ w with gui }.setTransfer d transfer) := by
  have kept : ∀ e tab, (w.transfers e).phase ≠ .idle ∧ (w.transfers e).origin = tab →
      (({ w with gui }.setTransfer d transfer).transfers e).phase ≠ .idle ∧
        (({ w with gui }.setTransfer d transfer).transfers e).origin = tab := by
    rintro e tab ⟨already, here⟩
    by_cases same : e = d
    · subst same
      rw [setTransfer_self]
      exact ⟨begun, origin.trans here⟩
    · simp only [setTransfer, Function.update_of_ne same]
      exact ⟨already, here⟩
  constructor
  · intro tab e owner
    exact kept e tab (ok.began tab e ((refs tab).symm.trans owner))
  · intro stop member
    obtain ⟨e, ref, here⟩ := ok.stops stop member
    exact ⟨e, ref, kept e _ here⟩

theorem StopsOwn.report {w : World} (ok : w.StopsOwn) (d : Download) (status : Status) :
    StopsOwn (w.report d status) :=
  { ok with }

theorem StopsOwn.didStart {w : World} (ok : w.StopsOwn) {d : Download}
    (idle : (w.transfers d).phase = .idle) :
    StopsOwn ({ w with gui := (w.gui.didStart d).1 }.setTransfer d
      ⟨.started, w.gui.currenttab, [], 0⟩) := by
  have other : ∀ e, (w.transfers e).phase ≠ .idle → e ≠ d := by
    rintro e begun rfl
    exact begun idle
  constructor
  · intro tab e owner
    simp only [setTransfer, Gui.didStart, Gui.setCurrent] at owner ⊢
    by_cases here : tab = w.gui.currenttab
    · subst here
      rw [Function.update_self] at owner
      obtain rfl := Option.some.inj owner
      rw [Function.update_self]
      exact ⟨by simp, rfl⟩
    · rw [Function.update_of_ne here] at owner
      have before := ok.began tab e owner
      rwa [Function.update_of_ne (other e before.1)]
  · intro stop member
    obtain ⟨e, ref, before⟩ := ok.stops stop member
    refine ⟨e, ref, ?_⟩
    simp only [setTransfer]
    rwa [Function.update_of_ne (other e before.1)]

theorem step_stopsOwn {w w' : World} {callback : Callback} (ok : w.StopsOwn)
    (here : w.StartsHere callback) (stepped : w.step callback = some w') : w'.StopsOwn := by
  cases callback with
  | didStart d origin =>
    simp only [step, Option.ite_none_right_eq_some, Option.some.injEq] at stepped
    obtain ⟨idle, rfl⟩ := stepped
    obtain rfl : origin = w.gui.currenttab := here
    exact (ok.didStart idle).report d .starting
  | decideDestination d filename =>
    simp only [step, Option.ite_none_right_eq_some, Option.some.injEq] at stepped
    obtain ⟨-, rfl⟩ := stepped
    apply ok.transfer
    · exact setCurrent_ref rfl
    · simp
    · rfl
  | didReceiveData d length =>
    simp only [step, Option.ite_none_right_eq_some, Option.some.injEq] at stepped
    obtain ⟨named, rfl⟩ := stepped
    apply StopsOwn.report
    apply ok.transfer
    · exact setCurrent_ref rfl
    · simp [named]
    · rfl
  | didFinish d | didFail d | didCancel d =>
    simp only [step, Option.ite_none_right_eq_some, Option.some.injEq] at stepped
    obtain ⟨-, rfl⟩ := stepped
    apply StopsOwn.report
    have after : StopsOwn ({ w with gui := w.gui }.setTransfer d
        { w.transfers d with phase := .ended }) := by
      apply ok.transfer
      · exact fun _ => rfl
      · simp
      · rfl
    exact after
  | switchTab tab =>
    obtain rfl := Option.some.inj stepped
    exact { ok with }
  | stopXfer =>
    obtain rfl := Option.some.inj stepped
    obtain ⟨d, ref⟩ := Option.ne_none_iff_exists'.mp here
    refine ⟨ok.began, List.forall_mem_append.mpr ⟨ok.stops, List.forall_mem_singleton.mpr ?_⟩⟩
    exact ⟨d, ref, ok.began _ d ref⟩

theorem start_stopsOwn (filenames : Nat → CString) (counts : Nat → Nat) (tab : Nat) :
    (start filenames counts tab).StopsOwn := by
  constructor
  · intro tab d owner
    cases owner
  · intro stop member
    cases member

/-- Two downloads of two tabs: each is called back in its own tab. -/
def inOwnTabs : List Callback :=
  [.didStart 7 0, .decideDestination 7 (cString "a"), .switchTab 1, .didStart 8 1,
    .decideDestination 8 (cString "b"), .didReceiveData 8 30, .switchTab 0, .didReceiveData 7 40,
    .didFinish 7, .stopXfer, .switchTab 1, .didCancel 8]

/-- Two downloads of one tab. -/
def inOneTab : List Callback :=
  [.didStart 7 0, .decideDestination 7 (cString "a"), .didStart 8 0,
    .decideDestination 8 (cString "b"), .didReceiveData 8 30, .didFinish 7]

end World

end NetRider.Browser
