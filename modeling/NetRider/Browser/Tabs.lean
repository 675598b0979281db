import Mathlib
import NetRider.Lib.Run

/-!
# The tabs of the browser window

`BrowserTabs` with the tables that are indexed by the number of a tab. The last tab, "+", stands for
the next one.

* `uses` records which index is used on which table; the tables of windows, views and pixel buffers
  have no other trace.
* A group is its address. The address of a new group is chosen by the allocator: it is of no group
  that is alive, but may be of one that was closed. `BrowserGroup` is not initialised.
* A label is its bytes. `lt8` is the translation of a text.
-/

namespace NetRider.Browser

def maxViews : Int := 600

abbrev CString := List UInt8

def cString (text : String) : CString := text.toList.map fun c => c.toNat.toUInt8

/-- What `snprintf` writes into `size` bytes. -/
def snprintf (size : Nat) (text : CString) : CString := text.take (size - 1)

abbrev Group := Nat

inductive Table
  | browserGroup
  | browserwin
  | view
  | pixelbuffer
  deriving DecidableEq

structure Use where
  table : Table
  index : Int

def Use.InRange (use : Use) : Prop := 0 ≤ use.index ∧ use.index < maxViews

structure Tabs where
  lasttab : Int
  currenttab : Int
  browserGroup : Int → Group
  children : List Group
  label : Group → CString
  value : Group
  uses : List Use

/-- The mouse button of the last event, the answer to a question, and the address a new group
gets. -/
structure Event where
  rightButton : Bool
  confirmed : Bool
  o : Group

namespace Tabs

variable (lt8 : CString → CString)

def record (tabs : Tabs) (uses : List Use) : Tabs := { tabs with uses := tabs.uses ++ uses }

/-- The tabs and the number of the new one. -/
def constructTab (tabs : Tabs) (o : Group) (text : CString) : Tabs × Int :=
  let currentnr := tabs.lasttab + 1
  ({ tabs with
      lasttab := currentnr
      browserGroup := Function.update tabs.browserGroup currentnr o
      children := tabs.children ++ [o]
      label := Function.update tabs.label o text }.record
    [⟨.browserGroup, currentnr⟩, ⟨.browserwin, currentnr⟩, ⟨.browserwin, currentnr⟩,
      ⟨.browserwin, currentnr⟩],
    currentnr)

/-- The loop over `BrowserGroup` that ends at the tab. -/
def find (tabs : Tabs) (tab : Group) : Option Nat :=
  (List.range maxViews.toNat).find? fun i => tab = tabs.browserGroup i

/-- The indices that the loop reads. -/
def searched (found : Option Nat) : List Use :=
  (List.range (found.elim maxViews.toNat (· + 1))).map fun i : Nat => ⟨.browserGroup, (i : Int)⟩

/-- A click on "+". `WebKit2::initUi` reads the window of the current tab three times. -/
def openTab (tabs : Tabs) (tab o : Group) : Tabs :=
  if maxViews ≤ tabs.lasttab then tabs
  else
    let tabs := { tabs with label := Function.update tabs.label tab (lt8 (cString "New Tab     ")) }
    let (tabs, currentnr) := tabs.constructTab o (cString "+")
    let ctab := currentnr - 1
    { tabs with currenttab := ctab }.record
      [⟨.view, ctab⟩, ⟨.browserwin, ctab⟩, ⟨.browserwin, ctab⟩, ⟨.browserwin, ctab⟩,
        ⟨.browserwin, ctab⟩, ⟨.browserwin, ctab⟩]

def closeTab (tabs : Tabs) (tab : Group) (confirmed : Bool) : Tabs :=
  let tabs := tabs.record [⟨.browserGroup, 0⟩]
  if tabs.browserGroup 0 = tab then tabs
  else if confirmed then
    let found := tabs.find tab
    { tabs with
      value := tabs.browserGroup 0
      currenttab := 0
      children := tabs.children.erase tab }
      |>.record [⟨.browserGroup, 0⟩]
      |>.record (searched found)
      |>.record (found.toList.map fun i : Nat => ⟨.pixelbuffer, (i : Int)⟩)
      |>.record [⟨.browserwin, 0⟩]
  else tabs

/-- `get_url` reads the view and the window once more. -/
def selectTab (tabs : Tabs) (tab : Group) : Tabs :=
  match tabs.find tab with
  | none => tabs.record (searched none)
  | some i =>
    { tabs with currenttab := i }
      |>.record (searched (some i))
      |>.record [⟨.view, i⟩, ⟨.browserwin, i⟩, ⟨.view, i⟩, ⟨.browserwin, i⟩]

def tabCallback (tabs : Tabs) (event : Event) : Tabs :=
  let tab := tabs.value
  if tabs.label tab = cString "+" then tabs.openTab lt8 tab event.o
  else if event.rightButton then tabs.closeTab tab event.confirmed
  else tabs.selectTab tab

/-- `handle_key` for Ctrl-T. -/
def newTab (tabs : Tabs) (event : Event) : Tabs :=
  { tabs with value := tabs.browserGroup tabs.lasttab }.record [⟨.browserGroup, tabs.lasttab⟩]
    |>.tabCallback lt8 event

/-- `handle_key` for Ctrl-W. -/
def closeCurrentTab (tabs : Tabs) (confirmed : Bool) : Tabs :=
  if tabs.currenttab = 0 ∨ tabs.currenttab = tabs.lasttab then tabs
  else
    let ctab := tabs.currenttab
    if confirmed then
      { tabs with
        value := tabs.browserGroup 0
        currenttab := 0
        children := tabs.children.erase (tabs.browserGroup ctab) }.record
        [⟨.browserGroup, 0⟩, ⟨.browserGroup, ctab⟩, ⟨.browserGroup, 0⟩, ⟨.browserwin, 0⟩]
    else tabs

/-- Shows a text of at most 11 bytes on the current tab. -/
def showTitle (tabs : Tabs) (text : CString) : Tabs :=
  let ctab := tabs.currenttab
  { tabs with
    label := Function.update tabs.label (tabs.browserGroup ctab) (snprintf 12 text) }.record
    [⟨.browserwin, ctab⟩, ⟨.browserGroup, ctab⟩, ⟨.browserwin, ctab⟩]

/-- Behind `newTab`, `loadURL` reads the view. -/
def openURLInNewTab (tabs : Tabs) (event : Event) : Tabs :=
  let tabs := (tabs.newTab lt8 event).showTitle (lt8 (cString "Loading...  "))
  tabs.record [⟨.view, tabs.currenttab⟩]

def createLayout (uninitialised : Int → Group) (first plus : Group) : Tabs :=
  let tabs : Tabs :=
    { lasttab := 0
      currenttab := 0
      browserGroup := Function.update uninitialised 0 first
      children := [first]
      label := fun _ => cString "New Tab    "
      value := first
      uses := [⟨.browserGroup, 0⟩, ⟨.browserwin, 0⟩, ⟨.browserwin, 0⟩, ⟨.browserwin, 0⟩] }
  (tabs.constructTab plus (cString "+")).1

inductive Action
  | click (tab : Group) (event : Event)
  | ctrlT (event : Event)
  | ctrlW (confirmed : Bool)
  | openLink (event : Event)
  /-- `didReceiveTitleForFrame`. -/
  | title (text : CString)

def step (tabs : Tabs) : Action → Option Tabs
  | .click tab event =>
    if tab ∈ tabs.children ∧ event.o ∉ tabs.children then
      some ({ tabs with value := tab }.tabCallback lt8 event)
    else none
  | .ctrlT event => if event.o ∉ tabs.children then some (tabs.newTab lt8 event) else none
  | .ctrlW confirmed => some (tabs.closeCurrentTab confirmed)
  | .openLink event => if event.o ∉ tabs.children then some (tabs.openURLInNewTab lt8 event) else none
  | .title text => some (tabs.showTitle text)

/-- The action is a click on a tab "+". -/
def Opens (tabs : Tabs) : Action → Prop
  | .click tab _ => tabs.label tab = cString "+"
  | .ctrlT _ | .openLink _ => tabs.label (tabs.browserGroup tabs.lasttab) = cString "+"
  | .ctrlW _ | .title _ => False

/-- A tab is opened only while the next "+" has a place. -/
def RoomLeft (tabs : Tabs) (action : Action) : Prop :=
  tabs.Opens action → tabs.lasttab + 1 < maxViews

/-! ## The indices stay in range -/

structure InBounds (tabs : Tabs) : Prop where
  lasttab_pos : 0 < tabs.lasttab
  lasttab_lt : tabs.lasttab < maxViews
  currenttab_nonneg : 0 ≤ tabs.currenttab
  currenttab_lt : tabs.currenttab < maxViews
  uses : ∀ use ∈ tabs.uses, use.InRange

theorem inRange_of {table : Table} {index : Int} (low : 0 ≤ index) (high : index < maxViews) :
    Use.InRange ⟨table, index⟩ :=
  ⟨low, high⟩

theorem natCast_inRange (table : Table) {i : Nat} (small : (i : Int) < maxViews) :
    Use.InRange ⟨table, (i : Int)⟩ :=
  ⟨Int.natCast_nonneg i, small⟩

theorem maxViews_pos : 0 < maxViews := by decide

theorem zero_inRange (table : Table) : Use.InRange ⟨table, 0⟩ := inRange_of (le_refl 0) maxViews_pos

theorem InBounds.record {tabs : Tabs} (ok : tabs.InBounds) {uses : List Use}
    (inRange : ∀ use ∈ uses, use.InRange) : (tabs.record uses).InBounds :=
  { ok with uses := List.forall_mem_append.mpr ⟨ok.uses, inRange⟩ }

theorem find_lt {tabs : Tabs} {tab : Group} {i : Nat} (found : tabs.find tab = some i) :
    (i : Int) < maxViews := by
  have member := List.mem_range.mp (List.mem_of_find?_eq_some found)
  have positive := maxViews_pos
  omega

theorem searched_inRange (tabs : Tabs) (tab : Group) :
    ∀ use ∈ searched (tabs.find tab), use.InRange := by
  intro use member
  obtain ⟨i, read, rfl⟩ := List.mem_map.mp member
  have bound := List.mem_range.mp read
  apply natCast_inRange
  cases found : tabs.find tab with
  | none =>
    have positive := maxViews_pos
    simp only [found, Option.elim_none] at bound
    omega
  | some j =>
    have small := find_lt found
    simp only [found, Option.elim_some] at bound
    omega

theorem openTab_inBounds {tabs : Tabs} (ok : tabs.InBounds) (room : tabs.lasttab + 1 < maxViews)
    (tab o : Group) : (tabs.openTab lt8 tab o).InBounds := by
  have positive := ok.lasttab_pos
  have free : ¬ maxViews ≤ tabs.lasttab := by omega
  rw [openTab, if_neg free]
  apply InBounds.record
  · constructor
    · change 0 < tabs.lasttab + 1
      omega
    · exact room
    · change 0 ≤ tabs.lasttab + 1 - 1
      omega
    · change tabs.lasttab + 1 - 1 < maxViews
      omega
    · refine List.forall_mem_append.mpr ⟨ok.uses, ?_⟩
      have next : ∀ table, Use.InRange ⟨table, tabs.lasttab + 1⟩ :=
        fun table => inRange_of (by omega) room
      simp [next]
  · have current : ∀ table, Use.InRange ⟨table, tabs.lasttab + 1 - 1⟩ :=
      fun table => inRange_of (by omega) (by omega)
    simp only [List.forall_mem_cons, current, true_and]
    simp

theorem closeTab_inBounds {tabs : Tabs} (ok : tabs.InBounds) (tab : Group) (confirmed : Bool) :
    (tabs.closeTab tab confirmed).InBounds := by
  have read : (tabs.record [⟨.browserGroup, 0⟩]).InBounds := by
    apply ok.record
    simp [zero_inRange]
  dsimp only [closeTab]
  split_ifs
  · exact read
  · apply InBounds.record
    · apply InBounds.record
      · apply InBounds.record
        · apply InBounds.record
          · exact
              { read with
                currenttab_nonneg := le_refl 0
                currenttab_lt := maxViews_pos }
          · simp [zero_inRange]
        · exact searched_inRange _ tab
      · intro use member
        obtain ⟨i, found, rfl⟩ := List.mem_map.mp member
        exact natCast_inRange _ (find_lt (Option.mem_toList.mp found))
    · simp [zero_inRange]
  · exact read

theorem selectTab_inBounds {tabs : Tabs} (ok : tabs.InBounds) (tab : Group) :
    (tabs.selectTab tab).InBounds := by
  have read := searched_inRange tabs tab
  unfold selectTab
  cases found : tabs.find tab with
  | none =>
    rw [found] at read
    exact ok.record read
  | some i =>
    rw [found] at read
    have inRange : ∀ table, Use.InRange ⟨table, i⟩ :=
      fun table => natCast_inRange table (find_lt found)
    apply InBounds.record
    · apply InBounds.record
      · exact
          { ok with
            currenttab_nonneg := Int.natCast_nonneg i
            currenttab_lt := find_lt found }
      · exact read
    · simp [inRange]

theorem tabCallback_inBounds {tabs : Tabs} (ok : tabs.InBounds)
    (room : tabs.label tabs.value = cString "+" → tabs.lasttab + 1 < maxViews) (event : Event) :
    (tabs.tabCallback lt8 event).InBounds := by
  dsimp only [tabCallback]
  split_ifs with plus
  · exact openTab_inBounds lt8 ok (room plus) _ _
  · exact closeTab_inBounds ok _ _
  · exact selectTab_inBounds ok _

theorem newTab_inBounds {tabs : Tabs} (ok : tabs.InBounds)
    (room : tabs.label (tabs.browserGroup tabs.lasttab) = cString "+" → tabs.lasttab + 1 < maxViews)
    (event : Event) : (tabs.newTab lt8 event).InBounds := by
  apply tabCallback_inBounds lt8 _ room
  apply InBounds.record
  · exact { ok with }
  · have last : Use.InRange ⟨.browserGroup, tabs.lasttab⟩ :=
      inRange_of (le_of_lt ok.lasttab_pos) ok.lasttab_lt
    simp [last]

theorem closeCurrentTab_inBounds {tabs : Tabs} (ok : tabs.InBounds) (confirmed : Bool) :
    (tabs.closeCurrentTab confirmed).InBounds := by
  dsimp only [closeCurrentTab]
  split_ifs
  · exact ok
  · apply InBounds.record
    · exact
        { ok with
          currenttab_nonneg := le_refl 0
          currenttab_lt := maxViews_pos }
    · have current : Use.InRange ⟨.browserGroup, tabs.currenttab⟩ :=
        inRange_of ok.currenttab_nonneg ok.currenttab_lt
      simp [zero_inRange, current]
  · exact ok

theorem current_inRange {tabs : Tabs} (ok : tabs.InBounds) (table : Table) :
    Use.InRange ⟨table, tabs.currenttab⟩ :=
  inRange_of ok.currenttab_nonneg ok.currenttab_lt

theorem showTitle_inBounds {tabs : Tabs} (ok : tabs.InBounds) (text : CString) :
    (tabs.showTitle text).InBounds := by
  apply InBounds.record
  · exact { ok with }
  · simp [current_inRange ok]

theorem createLayout_inBounds (uninitialised : Int → Group) (first plus : Group) :
    (createLayout uninitialised first plus).InBounds := by
  have one : ∀ table, Use.InRange ⟨table, 0 + 1⟩ :=
    fun table => inRange_of (by decide) (by decide)
  constructor
  · change (0 : Int) < 0 + 1
    decide
  · exact (one .view).2
  · exact le_refl 0
  · exact maxViews_pos
  · simp only [createLayout, constructTab, record, List.forall_mem_append, List.forall_mem_cons,
      zero_inRange, one, true_and]
    simp

theorem step_inBounds {tabs next : Tabs} {action : Action} (ok : tabs.InBounds)
    (room : tabs.RoomLeft action) (stepped : tabs.step lt8 action = some next) : next.InBounds := by
  cases action with
  | click tab event =>
    simp only [step, Option.ite_none_right_eq_some, Option.some.injEq] at stepped
    obtain ⟨-, rfl⟩ := stepped
    have shown : InBounds { tabs with value := tab } := { ok with }
    exact tabCallback_inBounds lt8 shown room event
  | ctrlT event =>
    simp only [step, Option.ite_none_right_eq_some, Option.some.injEq] at stepped
    obtain ⟨-, rfl⟩ := stepped
    exact newTab_inBounds lt8 ok room event
  | ctrlW confirmed =>
    obtain rfl := Option.some.inj stepped
    exact closeCurrentTab_inBounds ok confirmed
  | openLink event =>
    simp only [step, Option.ite_none_right_eq_some, Option.some.injEq] at stepped
    obtain ⟨-, rfl⟩ := stepped
    have shown := showTitle_inBounds (newTab_inBounds lt8 ok room event) (lt8 (cString "Loading...  "))
    apply shown.record
    simp [current_inRange shown]
  | title text =>
    obtain rfl := Option.some.inj stepped
    exact showTitle_inBounds ok text

/-! ## When they do not -/

theorem openTab_overflows {tabs : Tabs} (inside : tabs.lasttab < maxViews)
    (full : maxViews ≤ tabs.lasttab + 1) (tab o : Group) :
    ∃ use ∈ (tabs.openTab lt8 tab o).uses, ¬ use.InRange := by
  refine ⟨⟨.browserGroup, tabs.lasttab + 1⟩, ?_, fun inRange => absurd inRange.2 (by simpa using full)⟩
  rw [openTab, if_neg (not_le.mpr inside)]
  simp [record, constructTab]

theorem overflows_record {tabs : Tabs} (overflows : ∃ use ∈ tabs.uses, ¬ use.InRange)
    (uses : List Use) : ∃ use ∈ (tabs.record uses).uses, ¬ use.InRange := by
  obtain ⟨use, member, outside⟩ := overflows
  exact ⟨use, List.mem_append_left uses member, outside⟩

theorem tabCallback_plus {tabs : Tabs} (plus : tabs.label tabs.value = cString "+") (event : Event) :
    tabs.tabCallback lt8 event = tabs.openTab lt8 tabs.value event.o :=
  if_pos plus

/-- The tabs after Ctrl-T has shown the last tab. -/
def showLast (tabs : Tabs) : Tabs :=
  { tabs with value := tabs.browserGroup tabs.lasttab }.record [⟨.browserGroup, tabs.lasttab⟩]

theorem newTab_eq {tabs : Tabs} (plus : tabs.label (tabs.browserGroup tabs.lasttab) = cString "+")
    (event : Event) :
    tabs.newTab lt8 event = tabs.showLast.openTab lt8 (tabs.browserGroup tabs.lasttab) event.o :=
  tabCallback_plus lt8 plus event

theorem newTab_overflows {tabs : Tabs} (ok : tabs.InBounds)
    (plus : tabs.label (tabs.browserGroup tabs.lasttab) = cString "+")
    (full : maxViews ≤ tabs.lasttab + 1) (event : Event) :
    ∃ use ∈ (tabs.newTab lt8 event).uses, ¬ use.InRange := by
  rw [newTab_eq lt8 plus]
  have inside : tabs.showLast.lasttab < maxViews := ok.lasttab_lt
  exact openTab_overflows lt8 inside full _ _

theorem step_overflows {tabs next : Tabs} {action : Action} (ok : tabs.InBounds)
    (noRoom : ¬ tabs.RoomLeft action) (stepped : tabs.step lt8 action = some next) :
    ∃ use ∈ next.uses, ¬ use.InRange := by
  obtain ⟨opens, full⟩ := Classical.not_imp.mp noRoom
  rw [not_lt] at full
  cases action with
  | click tab event =>
    simp only [step, Option.ite_none_right_eq_some, Option.some.injEq] at stepped
    obtain ⟨-, rfl⟩ := stepped
    have plus : ({ tabs with value := tab } : Tabs).label tab = cString "+" := opens
    have shown : InBounds { tabs with value := tab } := { ok with }
    rw [tabCallback_plus lt8 plus]
    exact openTab_overflows lt8 shown.lasttab_lt full _ _
  | ctrlT event =>
    simp only [step, Option.ite_none_right_eq_some, Option.some.injEq] at stepped
    obtain ⟨-, rfl⟩ := stepped
    exact newTab_overflows lt8 ok opens full event
  | ctrlW confirmed => cases opens
  | openLink event =>
    simp only [step, Option.ite_none_right_eq_some, Option.some.injEq] at stepped
    obtain ⟨-, rfl⟩ := stepped
    exact overflows_record (overflows_record (newTab_overflows lt8 ok opens full event) _) _
  | title text => cases opens

theorem reach_inBounds {uninitialised : Int → Group} {first plus : Group} {tabs : Tabs}
    (reached : Lib.Reach (step lt8) RoomLeft (createLayout uninitialised first plus) tabs) :
    tabs.InBounds :=
  reached.invariant (createLayout_inBounds uninitialised first plus)
    fun _ _ _ ok room stepped => step_inBounds lt8 ok room stepped

/-- **The indices of tabs.** They stay in range as long as every tab is opened while the next "+" has
a place, and the first tab that is opened later leaves the tables. -/
theorem tab_indices_in_range (uninitialised : Int → Group) (first plus : Group) :
    (∀ tabs, Lib.Reach (step lt8) RoomLeft (createLayout uninitialised first plus) tabs →
      ∀ use ∈ tabs.uses, use.InRange) ∧
    ∀ tabs action next, Lib.Reach (step lt8) RoomLeft (createLayout uninitialised first plus) tabs →
      ¬ tabs.RoomLeft action → tabs.step lt8 action = some next →
      ∃ use ∈ next.uses, ¬ use.InRange := by
  constructor
  · intro tabs reached
    exact (reach_inBounds lt8 reached).uses
  · intro tabs action next reached full stepped
    exact step_overflows lt8 (reach_inBounds lt8 reached) full stepped

/-- Ctrl-T, again and again. -/
def openings (n : Nat) : List Action := (List.range n).map fun i => .ctrlT ⟨false, false, i + 3⟩

/-- Each of them leaves a "+" behind the tabs. -/
theorem run_openings {n : Nat} (room : (n : Int) + 1 ≤ maxViews) :
    ∃ tabs, Lib.run (step lt8) (createLayout (fun _ => 0) 1 2) (openings n) = some tabs ∧
      tabs.lasttab = n + 1 ∧ tabs.label (tabs.browserGroup tabs.lasttab) = cString "+" ∧
      (∀ group ∈ tabs.children, group < n + 3) ∧ ⟨.browserGroup, tabs.lasttab⟩ ∈ tabs.uses := by
  induction n with
  | zero =>
    refine ⟨_, rfl, rfl, ?_, ?_, ?_⟩
    · rfl
    · simp [createLayout, constructTab, record]
    · simp [createLayout, constructTab, record]
  | succ n ih =>
    obtain ⟨tabs, ran, last, plus, below, -⟩ := ih (by push_cast at room; omega)
    have free : n + 3 ∉ tabs.children := fun member => (below _ member).false
    have inside : ¬ maxViews ≤ tabs.showLast.lasttab := by
      change ¬ maxViews ≤ tabs.lasttab
      push_cast at room
      omega
    have opened : tabs.step lt8 (.ctrlT ⟨false, false, n + 3⟩) =
        some (tabs.newTab lt8 ⟨false, false, n + 3⟩) := if_pos free
    refine ⟨tabs.newTab lt8 ⟨false, false, n + 3⟩, ?_, ?_, ?_, ?_, ?_⟩
    · rw [openings, List.range_succ, List.map_append, Lib.run_append]
      change (Lib.run _ _ (openings n)).bind _ = _
      rw [ran]
      simp only [Option.bind_some, List.map_cons, List.map_nil, Lib.run, opened]
    · rw [newTab_eq lt8 plus, openTab, if_neg inside]
      simp [showLast, record, constructTab, last]
    · rw [newTab_eq lt8 plus, openTab, if_neg inside]
      simp [showLast, record, constructTab]
    · rw [newTab_eq lt8 plus, openTab, if_neg inside]
      intro group member
      simp only [showLast, record, constructTab, List.mem_append, List.mem_singleton] at member
      rcases member with old | rfl
      · exact (below group old).trans (Nat.lt_succ_self (n + 3))
      · exact Nat.lt_succ_self (n + 3)
    · rw [newTab_eq lt8 plus, openTab, if_neg inside]
      simp [showLast, record, constructTab]

/-- A second tab is opened. -/
theorem tab_indices_in_range_opened :
    ∀ use ∈ ((createLayout (fun _ => 0) 1 2).newTab id ⟨false, false, 3⟩).uses, use.InRange := by
  apply (tab_indices_in_range id (fun _ => 0) 1 2).1
  refine .next (.ctrlT ⟨false, false, 3⟩) .start ?_ ?_
  · intro _
    change (0 : Int) + 1 + 1 < maxViews
    decide
  · have free : 3 ∉ (createLayout (fun _ => 0) 1 2).children := by decide
    rw [step, if_pos free]

/-- The table of groups is left when Ctrl-T is pressed for the 599th time. -/
theorem tab_table_overflows :
    ∃ tabs, Lib.run (step id) (createLayout (fun _ => 0) 1 2) (openings 599) = some tabs ∧
      ∃ use ∈ tabs.uses, ¬ use.InRange := by
  have room : ((599 : Nat) : Int) + 1 ≤ maxViews := by decide
  obtain ⟨tabs, ran, last, -, -, used⟩ := run_openings id room
  refine ⟨tabs, ran, _, used, ?_⟩
  rintro ⟨-, inside⟩
  rw [last] at inside
  exact absurd room inside.not_ge

end Tabs

end NetRider.Browser
