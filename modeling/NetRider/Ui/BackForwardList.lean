import NetRider.Lib.Run
import Mathlib.Algebra.Group.Int.Defs
import Mathlib.Algebra.Group.Nat.Defs
import Mathlib.Data.List.TakeWhile

/-!
# The back/forward list of a page

`WebBackForwardList` keeps its entries in a vector with a separate index and
flag. `Zipper` says what the list is for: the items behind the current one, the
current one, the items ahead.

* `step_refines`, `run_refines`: every call keeps the list a zipper;
* `Refines.queries`: all queries then answer what the zipper says.
-/

namespace NetRider.Ui

open NetRider.Lib

variable {Item : Type}

/-- What the page is told: `backForwardRemovedItem` in call order, and the
arguments of each `didChangeBackForwardList`. -/
structure PageLog (Item : Type) where
  removed : List Item
  changes : List (Option Item × List Item)
  deriving DecidableEq, Repr

/-- `backForwardRemovedItem` for each item, then `didChangeBackForwardList`. -/
def PageLog.note (page : PageLog Item) (added : Option Item) (removed : List Item) :
    PageLog Item :=
  ⟨page.removed ++ removed, page.changes ++ [(added, removed)]⟩

structure WebBackForwardList (Item : Type) where
  page : Option (PageLog Item)
  entries : List Item
  hasCurrentIndex : Bool
  currentIndex : Nat
  capacity : Nat
  deriving DecidableEq, Repr

namespace WebBackForwardList

def defaultCapacity : Nat := 100

/-- A `Vector` of pointers that would need more elements than this crashes. -/
def vectorLimit : Nat := (2 ^ 32 - 1) / 8

/-- The constructor with another capacity; the code always has `defaultCapacity`. -/
def fresh (capacity : Nat) : WebBackForwardList Item :=
  ⟨some ⟨[], []⟩, [], false, 0, capacity⟩

def create : WebBackForwardList Item := fresh defaultCapacity

def pageClosed (l : WebBackForwardList Item) : WebBackForwardList Item :=
  { l with page := none, entries := [], hasCurrentIndex := false }

/-- The first half of `addItem`: the list without the tossed items, and these
in the order they are reported. -/
def makeRoom (l : WebBackForwardList Item) : WebBackForwardList Item × List Item :=
  if l.hasCurrentIndex then
    let targetSize := l.currentIndex + 1
    -- The loop pops from the back, so the farthest forward item is reported first.
    let tossed := (l.entries.drop targetSize).reverse
    let entries := l.entries.take targetSize
    if entries.length = l.capacity ∧ (l.currentIndex ≠ 0 ∨ l.capacity = 1) then
      let rest := entries.tail
      if rest.isEmpty then
        ({ l with entries := rest, hasCurrentIndex := false }, tossed ++ entries.take 1)
      else
        ({ l with entries := rest, currentIndex := l.currentIndex - 1 }, tossed ++ entries.take 1)
    else ({ l with entries := entries }, tossed)
  else ({ l with entries := [] }, l.entries)

/-- The second half of `addItem`; `none` when the vector cannot grow. -/
def insertCurrent (l : WebBackForwardList Item) (newItem : Item) :
    Option (WebBackForwardList Item) :=
  let index := if l.hasCurrentIndex then l.currentIndex + 1 else 0
  let l := { l with hasCurrentIndex := true, currentIndex := index }
  if index ≤ l.entries.length then
    if l.entries.length < vectorLimit then
      some { l with entries := l.entries.insertIdx index newItem }
    else none
  else some l

def addItem (l : WebBackForwardList Item) (newItem : Option Item) :
    Option (WebBackForwardList Item) :=
  match newItem, l.page with
  | some newItem, some page =>
    if l.capacity = 0 then some l
    else
      let (kept, removedItems) := l.makeRoom
      { kept with page := some (page.note (some newItem) removedItems) }.insertCurrent newItem
  | _, _ => some l

def goToItem [DecidableEq Item] (l : WebBackForwardList Item) (item : Option Item) : WebBackForwardList Item :=
  match item, l.page with
  | some item, some page =>
    if l.entries.length = 0 ∨ l.hasCurrentIndex = false then l
    else
      let index := l.entries.idxOf item
      if index < l.entries.length then
        { l with currentIndex := index, page := some (page.note none []) }
      else l
  | _, _ => l

def currentItem (l : WebBackForwardList Item) : Option Item :=
  if l.page.isSome ∧ l.hasCurrentIndex = true then l.entries[l.currentIndex]? else none

def clear [DecidableEq Item] (l : WebBackForwardList Item) : WebBackForwardList Item :=
  match l.page with
  | none => l
  | some page =>
    if l.entries.length ≤ 1 then l
    else
      match l.currentItem with
      | none =>
        { l with entries := [], hasCurrentIndex := false
                 page := some (page.note none l.entries) }
      | some currentItem =>
        -- The reports skip every entry that is the current item, `removedItems`
        -- skips the entry at the current index.
        { l with
          currentIndex := 0
          entries := [currentItem]
          page := some ⟨page.removed ++ l.entries.filter (· ≠ currentItem),
            page.changes ++ [(none, l.entries.eraseIdx l.currentIndex)]⟩ }

/-! ## Queries -/

/-- A value stored in a C++ `int`. -/
def toInt (n : Int) : Int := n.bmod (2 ^ 32)

def backItem (l : WebBackForwardList Item) : Option Item :=
  if l.page.isSome ∧ l.hasCurrentIndex = true ∧ l.currentIndex ≠ 0 then
    l.entries[l.currentIndex - 1]?
  else none

def forwardItem (l : WebBackForwardList Item) : Option Item :=
  if l.page.isSome ∧ l.hasCurrentIndex = true ∧ l.entries.length ≠ 0 ∧
      l.currentIndex < l.entries.length - 1 then
    l.entries[l.currentIndex + 1]?
  else none

def backListCount (l : WebBackForwardList Item) : Int :=
  if l.page.isSome ∧ l.hasCurrentIndex = true then toInt l.currentIndex else 0

def forwardListCount (l : WebBackForwardList Item) : Int :=
  if l.page.isSome ∧ l.hasCurrentIndex = true then
    toInt ((l.entries.length : Int) - (l.currentIndex + 1))
  else 0

/-- The subscript adds an `int` to an `unsigned`, so it is taken modulo `2 ^ 32`. -/
def itemAtIndex (l : WebBackForwardList Item) (index : Int) : Option Item :=
  if l.hasCurrentIndex = false ∨ l.page.isNone then none
  else if index < toInt (-l.backListCount) then none
  else if index > l.forwardListCount then none
  else l.entries[((index + l.currentIndex) % 2 ^ 32).toNat]?

def backListAsAPIArrayWithLimit (l : WebBackForwardList Item) (limit : Nat) : List Item :=
  if l.page.isNone ∨ l.hasCurrentIndex = false then []
  else
    let backListSize := (l.backListCount % 2 ^ 32).toNat
    let size := min backListSize limit
    (l.entries.take backListSize).drop (backListSize - size)

def forwardListAsAPIArrayWithLimit (l : WebBackForwardList Item) (limit : Nat) : List Item :=
  if l.page.isNone ∨ l.hasCurrentIndex = false then []
  else
    let size := min (l.forwardListCount % 2 ^ 32).toNat limit
    (l.entries.drop (l.currentIndex + 1)).take size

inductive Call (Item : Type)
  | addItem (newItem : Option Item)
  | goToItem (item : Option Item)
  | clear
  | pageClosed

def step [DecidableEq Item] (l : WebBackForwardList Item) : Call Item → Option (WebBackForwardList Item)
  | .addItem newItem => l.addItem newItem
  | .goToItem item => some (l.goToItem item)
  | .clear => some l.clear
  | .pageClosed => some l.pageClosed

end WebBackForwardList

/-! ## What the list is for -/

/-- Items behind and ahead are listed from the nearest one on. -/
structure Zipper (Item : Type) where
  back : List Item
  current : Item
  forward : List Item

namespace Zipper

def toList (z : Zipper Item) : List Item := z.back.reverse ++ z.current :: z.forward

/-- What lies behind a new item: the oldest item goes when the length would exceed `n`. -/
def past (n : Nat) (z : Zipper Item) : List Item :=
  if (z.current :: z.back).length + 1 > n then (z.current :: z.back).dropLast
  else z.current :: z.back

def focus [DecidableEq Item] (item : Item) (items : List Item) : Zipper Item :=
  ⟨(items.takeWhile (· ≠ item)).reverse, item, (items.dropWhile (· ≠ item)).tail⟩

def itemAt (z : Zipper Item) (i : Int) : Option Item :=
  if i = 0 then some z.current
  else if 0 < i then z.forward[i.toNat - 1]?
  else z.back[(-i).toNat - 1]?

end Zipper

/-- A closed page has no items and accepts none. -/
structure History (Item : Type) where
  isOpen : Bool
  zipper : Option (Zipper Item)

namespace History

def step [DecidableEq Item] (n : Nat) (h : History Item) : WebBackForwardList.Call Item → History Item
  | .addItem (some item) =>
    if h.isOpen then { h with zipper := some ⟨(h.zipper.map (Zipper.past n)).getD [], item, []⟩ }
    else h
  | .goToItem (some item) =>
    { h with zipper := h.zipper.map fun z => if item ∈ z.toList then .focus item z.toList else z }
  | .clear => { h with zipper := h.zipper.map fun z => ⟨[], z.current, []⟩ }
  | .pageClosed => ⟨false, none⟩
  | .addItem none | .goToItem none => h

end History

open WebBackForwardList

/-- The vector, the flag and the index spell out the zipper. -/
def Shape (l : WebBackForwardList Item) : Option (Zipper Item) → Prop
  | none => l.entries = [] ∧ l.hasCurrentIndex = false
  | some z => l.entries = z.toList ∧ l.hasCurrentIndex = true ∧ l.currentIndex = z.back.length

structure Refines (n : Nat) (l : WebBackForwardList Item) (h : History Item) : Prop where
  capacity : l.capacity = n
  page : l.page.isSome = h.isOpen
  shape : Shape l h.zipper
  isOpen : h.zipper.isSome = true → h.isOpen = true
  fits : l.entries.length ≤ n
  small : l.entries.length ≤ vectorLimit

theorem fresh_refines (n : Nat) : Refines n (fresh n : WebBackForwardList Item) ⟨true, none⟩ :=
  ⟨rfl, rfl, ⟨rfl, rfl⟩, by simp, Nat.zero_le _, Nat.zero_le _⟩

theorem Zipper.past_length (n : Nat) (z : Zipper Item) (fits : z.toList.length ≤ n) :
    (z.past n).length + 1 ≤ n := by
  simp only [toList, List.length_append, List.length_reverse, List.length_cons] at fits
  unfold past
  split
  · simp only [List.length_dropLast, List.length_cons]; omega
  · omega

theorem Zipper.getElem?_back_length (z : Zipper Item) : z.toList[z.back.length]? = some z.current := by
  simp [Zipper.toList]

/-- After `makeRoom` the entries are the items behind the new one, oldest first,
and the new item goes right behind them. -/
theorem makeRoom_spec (l : WebBackForwardList Item) (z : Zipper Item) (shape : Shape l (some z))
    (fits : l.entries.length ≤ l.capacity) :
    l.makeRoom.1.entries = (z.past l.capacity).reverse ∧
    (if l.makeRoom.1.hasCurrentIndex then l.makeRoom.1.currentIndex + 1 else 0) =
      (z.past l.capacity).length ∧
    l.makeRoom.1.capacity = l.capacity := by
  obtain ⟨entries, has, index⟩ := shape
  have split : l.entries = (z.current :: z.back).reverse ++ z.forward := by
    simp [entries, Zipper.toList]
  have taken : l.entries.take (z.back.length + 1) = (z.current :: z.back).reverse := by
    rw [split, List.take_left' (by simp)]
  have long : z.back.length + 1 ≤ l.capacity := by
    have := congrArg List.length split
    simp only [List.length_append, List.length_reverse, List.length_cons] at this
    omega
  unfold makeRoom Zipper.past
  simp only [has, ↓reduceIte, index, taken, List.length_reverse, List.length_cons,
    List.tail_reverse, List.isEmpty_reverse]
  by_cases full : z.back.length + 1 = l.capacity
  · have oldest : z.back.length ≠ 0 ∨ l.capacity = 1 := by omega
    rw [if_pos ⟨full, oldest⟩, if_pos (by omega : z.back.length + 1 + 1 > l.capacity)]
    cases hb : z.back with
    | nil => simp
    | cons b bs => simp
  · rw [if_neg (fun h => full h.1), if_neg (by omega : ¬ z.back.length + 1 + 1 > l.capacity)]
    simp

theorem insertCurrent_spec {l t : WebBackForwardList Item} {item : Item}
    (h : l.insertCurrent item = some t) (past : List Item) (entries : l.entries = past.reverse)
    (index : (if l.hasCurrentIndex then l.currentIndex + 1 else 0) = past.length) :
    t.entries = past.reverse ++ [item] ∧ t.hasCurrentIndex = true ∧
    t.currentIndex = past.length ∧ t.capacity = l.capacity ∧ t.page = l.page ∧
    past.length < vectorLimit := by
  unfold insertCurrent at h
  simp only [index, entries, List.length_reverse, Nat.le_refl, ↓reduceIte] at h
  split at h
  · rename_i small
    cases h
    have last : past.length = past.reverse.length := by simp
    refine ⟨?_, rfl, rfl, rfl, rfl, small⟩
    simp only [last, List.insertIdx_length_self]
  · cases h

theorem addItem_refines [DecidableEq Item] {n : Nat} {l t : WebBackForwardList Item} {h : History Item}
    (pos : 0 < n) (r : Refines n l h) (newItem : Option Item) (stepped : l.addItem newItem = some t) :
    Refines n t (h.step n (.addItem newItem)) := by
  cases newItem with
  | none => simp only [addItem, Option.some.injEq] at stepped; exact stepped ▸ r
  | some item =>
    have page := r.page
    cases hp : l.page with
    | none =>
      simp only [addItem, hp, Option.some.injEq] at stepped
      have closed : h.isOpen = false := by rw [← page, hp]; rfl
      simpa [History.step, closed] using stepped ▸ r
    | some log =>
      have isOpen : h.isOpen = true := by rw [← page, hp]; rfl
      have ready : l.capacity ≠ 0 := by rw [r.capacity]; omega
      simp only [addItem, hp, ready, ↓reduceIte] at stepped
      simp only [History.step, isOpen, ↓reduceIte]
      -- Without a current item the vector is empty, and so is the past.
      obtain ⟨past, hpast, entries, index, capacity, short⟩ : ∃ past,
          past = (h.zipper.map (Zipper.past n)).getD [] ∧
          l.makeRoom.1.entries = past.reverse ∧
          (if l.makeRoom.1.hasCurrentIndex then l.makeRoom.1.currentIndex + 1 else 0) = past.length ∧
          l.makeRoom.1.capacity = l.capacity ∧ past.length + 1 ≤ n := by
        have shape := r.shape
        cases hz : h.zipper with
        | none =>
          rw [hz] at shape
          exact ⟨[], rfl, by simp [makeRoom, shape.2]; omega⟩
        | some z =>
          rw [hz] at shape
          have spec := makeRoom_spec l z shape (by rw [r.capacity]; exact r.fits)
          rw [r.capacity] at spec
          exact ⟨_, rfl, spec.1, spec.2.1, by rw [spec.2.2, r.capacity],
            z.past_length n (shape.1 ▸ r.fits)⟩
      obtain ⟨te, th, ti, tc, tp, tv⟩ := insertCurrent_spec stepped past entries index
      refine ⟨by rw [tc]; exact capacity.trans r.capacity, by rw [tp]; rfl,
        ⟨?_, th, by rw [ti, hpast]⟩, fun _ => rfl, ?_, ?_⟩
      · simp [te, Zipper.toList, hpast]
      · simp only [te, List.length_append, List.length_reverse, List.length_cons, List.length_nil]
        omega
      · simp only [te, List.length_append, List.length_reverse, List.length_cons, List.length_nil]
        omega

section
variable [DecidableEq Item]

/-- The zipper focused on an item of a list spells out that list. -/
theorem focus_spec {item : Item} {items : List Item} (h : item ∈ items) :
    (Zipper.focus item items).toList = items ∧
    (Zipper.focus item items).back.length = items.idxOf item := by
  induction items with
  | nil => simp at h
  | cons x xs ih =>
    by_cases hx : x = item
    · subst hx; simp [Zipper.focus, Zipper.toList]
    · have hne : ¬ item = x := fun e => hx e.symm
      obtain ⟨list, index⟩ := ih (by simpa [hne] using h)
      simp only [Zipper.focus, Zipper.toList, List.length_reverse, List.reverse_reverse] at list index ⊢
      simp only [ne_eq, hx, not_false_eq_true, decide_true, List.takeWhile_cons_of_pos,
        List.dropWhile_cons_of_pos, List.cons_append, List.length_cons,
        List.idxOf_cons_ne _ hx, Nat.succ_eq_add_one]
      exact ⟨congrArg _ list, congrArg (· + 1) index⟩

theorem goToItem_refines {n : Nat} {l : WebBackForwardList Item} {h : History Item}
    (r : Refines n l h) (item : Option Item) :
    Refines n (l.goToItem item) (h.step n (.goToItem item)) := by
  cases item with
  | none => exact r
  | some item =>
    obtain ⟨isOpen, zipper⟩ := h
    have shape := r.shape
    cases zipper with
    | none =>
      have same : l.goToItem (some item) = l := by
        unfold goToItem; split <;> simp [shape.1]
      rw [same]
      exact r
    | some z =>
      obtain ⟨log, hp⟩ := Option.isSome_iff_exists.mp (r.page.trans (r.isOpen rfl))
      have long : ¬ (l.entries.length = 0 ∨ l.hasCurrentIndex = false) := by
        simp [shape.1, shape.2.1, Zipper.toList]
      simp only [goToItem, hp, long, ↓reduceIte, List.idxOf_lt_length_iff, History.step,
        Option.map_some]
      by_cases hm : item ∈ z.toList
      · obtain ⟨list, index⟩ := focus_spec hm
        rw [if_pos (shape.1 ▸ hm), if_pos hm]
        exact ⟨r.capacity, by simpa [hp] using r.page,
          ⟨shape.1.trans list.symm, shape.2.1, by simp [index, shape.1]⟩,
          fun _ => r.isOpen rfl, r.fits, r.small⟩
      · rw [if_neg (shape.1 ▸ hm), if_neg hm]
        exact ⟨r.capacity, r.page, shape, fun _ => r.isOpen rfl, r.fits, r.small⟩

theorem clear_refines {n : Nat} {l : WebBackForwardList Item} {h : History Item}
    (r : Refines n l h) : Refines n l.clear (h.step n .clear) := by
  obtain ⟨isOpen, zipper⟩ := h
  have shape := r.shape
  cases zipper with
  | none =>
    have same : l.clear = l := by
      unfold clear; split <;> simp [shape.1]
    rw [same]
    exact r
  | some z =>
    obtain ⟨log, hp⟩ := Option.isSome_iff_exists.mp (r.page.trans (r.isOpen rfl))
    have item : l.currentItem = some z.current := by
      simp [currentItem, hp, shape.1, shape.2.1, shape.2.2, z.getElem?_back_length]
    simp only [clear, hp, item, History.step, Option.map_some]
    split
    · rename_i short
      -- A list of one item is already what `clear` leaves.
      have alone : z.back = [] ∧ z.forward = [] := by
        simp only [shape.1, Zipper.toList, List.length_append, List.length_reverse,
          List.length_cons] at short
        exact ⟨List.length_eq_zero_iff.mp (by omega), List.length_eq_zero_iff.mp (by omega)⟩
      refine ⟨r.capacity, r.page, ⟨?_, shape.2.1, ?_⟩, fun _ => r.isOpen rfl, r.fits, r.small⟩
      · simp [shape.1, Zipper.toList, alone.1, alone.2]
      · simp [shape.2.2, alone.1]
    · rename_i long
      have fits := r.fits
      have small := r.small
      exact ⟨r.capacity, by simpa [hp] using r.page, ⟨rfl, shape.2.1, rfl⟩,
        fun _ => r.isOpen rfl, by simp; omega, by simp; omega⟩

theorem step_refines {n : Nat} (pos : 0 < n) (l : WebBackForwardList Item) (h : History Item)
    (call : Call Item) (t : WebBackForwardList Item) (r : Refines n l h) (stepped : l.step call = some t) :
    Refines n t (h.step n call) := by
  cases call with
  | addItem newItem => exact addItem_refines pos r newItem stepped
  | goToItem item => cases stepped; exact goToItem_refines r item
  | clear => cases stepped; exact clear_refines r
  | pageClosed =>
    cases stepped
    exact ⟨r.capacity, rfl, ⟨rfl, rfl⟩, by simp [History.step], Nat.zero_le _, Nat.zero_le _⟩

theorem run_refines {n : Nat} (pos : 0 < n) {calls : List (Call Item)} {l : WebBackForwardList Item}
    (h : run step (fresh n) calls = some l) :
    Refines n l (calls.foldl (History.step n) ⟨true, none⟩) :=
  run_simulates (step_refines pos) (fresh_refines n) h

end

/-! ## The queries -/

/-- Every query answers what the zipper says, `itemAtIndex` for every `int`. -/
structure Answers (l : WebBackForwardList Item) (z : Option (Zipper Item)) : Prop where
  currentItem : l.currentItem = z.map Zipper.current
  backItem : l.backItem = z.bind (·.back.head?)
  forwardItem : l.forwardItem = z.bind (·.forward.head?)
  itemAtIndex : ∀ i : Int, -2 ^ 31 ≤ i → i < 2 ^ 31 → l.itemAtIndex i = z.bind (·.itemAt i)
  backListCount : l.backListCount = (z.map (·.back.length)).getD 0
  forwardListCount : l.forwardListCount = (z.map (·.forward.length)).getD 0
  backList : ∀ limit, l.backListAsAPIArrayWithLimit limit =
    (z.map fun z => (z.back.take limit).reverse).getD []
  forwardList : ∀ limit, l.forwardListAsAPIArrayWithLimit limit =
    (z.map fun z => z.forward.take limit).getD []

theorem toInt_of_small {n : Int} (low : -2 ^ 31 ≤ n) (high : n < 2 ^ 31) : toInt n = n := by
  unfold toInt
  rw [Int.bmod_def]
  split <;> omega

theorem Zipper.getElem?_forward (z : Zipper Item) (k : Nat) :
    z.toList[z.back.length + 1 + k]? = z.forward[k]? := by
  rw [toList, List.getElem?_append_right (by simp; omega)]
  simp [show z.back.length + 1 + k - z.back.length = k + 1 by omega]

theorem Zipper.getElem?_back (z : Zipper Item) {k : Nat} (hk : k < z.back.length) :
    z.toList[z.back.length - 1 - k]? = z.back[k]? := by
  rw [toList, List.getElem?_append_left (by simp; omega), List.getElem?_reverse (by omega)]
  congr 1
  omega

/-- The subscript of `itemAtIndex`, once the range checks have passed. -/
theorem Zipper.getElem?_offset (z : Zipper Item) {i : Int} (low : -z.back.length ≤ i) :
    z.toList[(i + z.back.length).toNat]? = z.itemAt i := by
  unfold itemAt
  split
  · rename_i zero
    simpa [zero] using z.getElem?_back_length
  split
  · rename_i ahead
    rw [← z.getElem?_forward]
    congr 1
    omega
  · rename_i nonzero behind
    rw [← z.getElem?_back (by omega)]
    congr 1
    omega

theorem Zipper.itemAt_outside (z : Zipper Item) {i : Int}
    (h : i < -z.back.length ∨ z.forward.length < i) : z.itemAt i = none := by
  unfold itemAt
  rcases h with h | h
  · rw [if_neg (by omega), if_neg (by omega), List.getElem?_eq_none (by omega)]
  · rw [if_neg (by omega), if_pos (by omega), List.getElem?_eq_none (by omega)]

theorem answers_empty {l : WebBackForwardList Item} (shape : Shape l none) : Answers l none := by
  obtain ⟨-, has⟩ := shape
  constructor <;>
    simp [currentItem, backItem, forwardItem, itemAtIndex, backListCount, forwardListCount,
      backListAsAPIArrayWithLimit, forwardListAsAPIArrayWithLimit, has]

theorem answers_zipper {l : WebBackForwardList Item} {z : Zipper Item} (shape : Shape l (some z))
    (page : l.page.isSome = true) (small : l.entries.length ≤ vectorLimit) : Answers l (some z) := by
  obtain ⟨entries, has, index⟩ := shape
  have hpage : l.page.isNone = false := by simpa using page
  have len : z.toList.length = z.back.length + 1 + z.forward.length := by
    simp [Zipper.toList]; omega
  have bound : z.back.length + 1 + z.forward.length < 2 ^ 31 := by
    rw [entries, len] at small
    unfold vectorLimit at small
    omega
  have back : l.backListCount = z.back.length := by
    simp only [backListCount, page, has, and_self, ↓reduceIte, index]
    exact toInt_of_small (by omega) (by omega)
  have forward : l.forwardListCount = z.forward.length := by
    simp only [forwardListCount, page, has, and_self, ↓reduceIte, index, entries, len]
    rw [toInt_of_small (by omega) (by omega)]
    omega
  constructor
  · simp [currentItem, page, has, index, entries, z.getElem?_back_length]
  · simp only [backItem, page, has, index, entries, true_and, Option.bind_some]
    cases hb : z.back with
    | nil => simp
    | cons b bs =>
      have := z.getElem?_back (k := 0) (by simp [hb])
      simpa [hb] using this
  · simp only [forwardItem, page, has, index, entries, len, true_and, Option.bind_some]
    cases hf : z.forward with
    | nil => simp
    | cons f fs =>
      have := z.getElem?_forward 0
      simp only [hf, Nat.add_zero, List.getElem?_cons_zero] at this
      rw [if_pos (by simp only [List.length_cons]; omega), this, List.head?_cons]
  · intro i low high
    simp only [itemAtIndex, has, hpage, back, forward, Bool.true_eq_false, Bool.false_eq_true,
      or_self, ↓reduceIte, Option.bind_some]
    rw [toInt_of_small (by omega) (by omega)]
    split
    · exact (z.itemAt_outside (.inl (by assumption))).symm
    split
    · exact (z.itemAt_outside (.inr (by assumption))).symm
    · rw [entries, index, Int.emod_eq_of_lt (by omega) (by omega)]
      exact z.getElem?_offset (by omega)
  · simp [back]
  · simp [forward]
  · intro limit
    simp only [backListAsAPIArrayWithLimit, hpage, has, back, Bool.false_eq_true,
      Bool.true_eq_false, or_self, ↓reduceIte, Option.map_some, Option.getD_some]
    have cast : ((z.back.length : Int) % 2 ^ 32).toNat = z.back.length := by omega
    rw [cast, entries, Zipper.toList, List.take_left' (by simp)]
    rw [show z.back.length - min z.back.length limit = z.back.length - limit by omega]
    exact (List.reverse_take ..).symm
  · intro limit
    simp only [forwardListAsAPIArrayWithLimit, hpage, has, forward, index, Bool.false_eq_true,
      Bool.true_eq_false, or_self, ↓reduceIte, Option.map_some, Option.getD_some]
    have cast : ((z.forward.length : Int) % 2 ^ 32).toNat = z.forward.length := by omega
    have ahead : z.toList = (z.current :: z.back).reverse ++ z.forward := by simp [Zipper.toList]
    rw [cast, entries, ahead, List.drop_left' (by simp), ← List.take_take]
    exact List.take_of_length_le (List.length_take_le' _ _)

theorem Refines.answers {n : Nat} {l : WebBackForwardList Item} {h : History Item}
    (r : Refines n l h) : Answers l h.zipper := by
  have shape := r.shape
  cases hz : h.zipper with
  | none => exact answers_empty (hz ▸ shape)
  | some z => exact answers_zipper (hz ▸ shape) (r.page.trans (r.isOpen (by simp [hz]))) r.small

end NetRider.Ui
