import Mathlib
import NetRider.Browser.Tabs

/-!
# Save target as

`download_file` leaves a flag in the window of the current tab and loads its target there;
`decidePolicyForResponse` looks at the flag of the tab that is current by then.

* A load is what one call of `loadURL`, a click on a link or a frame has begun. It gets one response
  at most.
* `intent` is the last call of `download_file` in a tab, if no response has been decided there
  since. It is no part of the program.
-/

namespace NetRider.Browser

inductive Policy
  | use
  | download
  | ignore
  deriving DecidableEq

/-- What `decidePolicyForResponse` asks of the response and its frame. -/
structure Response where
  isAttachment : Bool
  isMainFrame : Bool
  canShowMIMEType : Bool
  mimeType : CString

/-- `currenttab` and the flags of the windows. -/
structure Flags where
  currenttab : Nat
  savetargetas : Nat → Bool

namespace Flags

variable (flags : Flags)

def set (value : Bool) : Flags :=
  { flags with savetargetas := Function.update flags.savetargetas flags.currenttab value }

/-- `download_file` up to `loadURL`; no file is chosen if the user cancels. -/
def downloadFile (chosen : Bool) : Flags := if chosen then flags.set true else flags

def decidePolicyForResponse (response : Response) : Flags × Policy :=
  if flags.savetargetas flags.currenttab then (flags.set false, .download)
  else if response.isAttachment then (flags, .download)
  else if response.isMainFrame then
    (flags, if response.canShowMIMEType then .use else .download)
  else
    let isXMLType := response.mimeType = cString "text/xml" ∨
      response.mimeType = cString "application/xml"
    (flags, if ¬ response.canShowMIMEType ∧ ¬ isXMLType then .ignore else .use)

end Flags

/-! ## Interleavings -/

abbrev Load := Nat

/-- A decision because of a flag has the call of `download_file` that set it. -/
structure Decision where
  load : Load
  policy : Policy
  becauseSaved : Bool
  intent : Option Load

inductive LoadEvent
  | downloadFile (load : Load) (url : CString) (chosen : Bool)
  /-- A navigation or a load of a subframe, in any tab. -/
  | begin (load : Load) (url : CString)
  | switchTab (tab : Nat)
  | respond (load : Load) (response : Response)

/-- The url of a load that has begun, and whether it is the target of a `download_file`. -/
structure Begun where
  url : CString
  saved : Bool

structure Loads where
  flags : Flags
  loads : Load → Option Begun
  intent : Nat → Option Load
  decisions : List Decision

namespace Loads

def start (tab : Nat) : Loads := ⟨⟨tab, fun _ => false⟩, fun _ => none, fun _ => none, []⟩

def answered (w : Loads) (load : Load) : Prop := ∃ d ∈ w.decisions, d.load = load

instance (w : Loads) (load : Load) : Decidable (w.answered load) :=
  inferInstanceAs (Decidable (∃ d ∈ w.decisions, _))

def saved (w : Loads) (load : Load) : Bool := (w.loads load).elim false Begun.saved

def begin (w : Loads) (load : Load) (begun : Begun) : Loads :=
  { w with loads := Function.update w.loads load (some begun) }

def setIntent (w : Loads) (intent : Option Load) : Loads :=
  { w with intent := Function.update w.intent w.flags.currenttab intent }

/-- The decision for a response. -/
def decision (w : Loads) (load : Load) (response : Response) : Decision where
  load
  policy := (w.flags.decidePolicyForResponse response).2
  becauseSaved := w.flags.savetargetas w.flags.currenttab
  intent := w.intent w.flags.currenttab

def respond (w : Loads) (load : Load) (response : Response) : Loads :=
  { w.setIntent none with
    flags := (w.flags.decidePolicyForResponse response).1
    decisions := w.decisions ++ [w.decision load response] }

def step (w : Loads) : LoadEvent → Option Loads
  | .downloadFile load url chosen =>
    if w.loads load ≠ none then none
    else if chosen then
      some (({ w with flags := w.flags.downloadFile true }.begin load ⟨url, true⟩).setIntent (some load))
    else some { w with flags := w.flags.downloadFile false }
  | .begin load url => if w.loads load ≠ none then none else some (w.begin load ⟨url, false⟩)
  | .switchTab tab => some { w with flags := { w.flags with currenttab := tab } }
  | .respond load response =>
    if w.loads load = none ∨ w.answered load then none else some (w.respond load response)

/-- How often a load was downloaded because of a flag. -/
def savedCount (w : Loads) (load : Load) : Nat :=
  (w.decisions.filter fun d => d.load = load ∧ d.becauseSaved).length

/-- Only its own target is downloaded for a `download_file`, and once if it gets a response. -/
def OnlyTargets (w : Loads) : Prop :=
  (∀ d ∈ w.decisions, d.becauseSaved = true → d.intent = some d.load) ∧
    ∀ load, w.saved load = true → w.answered load → w.savedCount load = 1

/-- A response to the target of a `download_file` is decided while its tab is current, and nothing
else has been asked for or decided there since; any other response while the last call there is
answered. -/
def Undisturbed (w : Loads) : LoadEvent → Prop
  | .respond load _ => w.intent w.flags.currenttab = if w.saved load then some load else none
  | _ => True

instance (w : Loads) : DecidablePred w.Undisturbed
  | .respond _ _ => inferInstanceAs (Decidable (_ = _))
  | .downloadFile _ _ _ | .begin _ _ | .switchTab _ => isTrue trivial

/-! ## Flags and intents -/

/-- The flag of a tab stands for a call of `download_file`. -/
structure Standing (w : Loads) : Prop where
  flag : ∀ tab, w.flags.savetargetas tab = (w.intent tab).isSome
  saved : ∀ tab load, w.intent tab = some load → w.saved load = true
  begun : ∀ load, w.answered load → w.loads load ≠ none

theorem decidePolicyForResponse_flags (flags : Flags) (response : Response) :
    (flags.decidePolicyForResponse response).1 = flags.set false := by
  unfold Flags.decidePolicyForResponse
  have unset : flags.savetargetas flags.currenttab ≠ true → flags.set false = flags := by
    intro off
    rw [Flags.set, ← Bool.eq_false_iff.mpr off, Function.update_eq_self]
  split_ifs with set
  · rfl
  · exact (unset set).symm
  · exact (unset set).symm
  · exact (unset set).symm
  · exact (unset set).symm

theorem saved_begin {w : Loads} {load : Load} (new : w.loads load = none) (begun : Begun)
    {other : Load} (already : w.saved other = true) : (w.begin load begun).saved other = true := by
  have different : other ≠ load := by
    rintro rfl
    simp [saved, new] at already
  simpa [saved, begin, different] using already

theorem Standing.begin {w : Loads} (ok : w.Standing) {load : Load} (new : w.loads load = none)
    (begun : Begun) : (w.begin load begun).Standing := by
  refine ⟨ok.flag, ?_, ?_⟩
  · intro tab other intent
    exact saved_begin new begun (ok.saved tab other intent)
  · intro other answered
    have before := ok.begun other answered
    by_cases same : other = load
    · exact absurd (same ▸ new) before
    · simpa [Loads.begin, same] using before

theorem Standing.set {w : Loads} (ok : w.Standing) (intent : Option Load)
    (saved : ∀ load, intent = some load → w.saved load = true) :
    Standing { w.setIntent intent with flags := w.flags.set intent.isSome } := by
  refine ⟨?_, ?_, ok.begun⟩
  · intro tab
    by_cases here : tab = w.flags.currenttab
    · subst here
      simp [Flags.set, setIntent]
    · simpa [Flags.set, setIntent, here] using ok.flag tab
  · intro tab load standing
    change Function.update w.intent w.flags.currenttab intent tab = some load at standing
    by_cases here : tab = w.flags.currenttab
    · subst here
      rw [Function.update_self] at standing
      exact saved load standing
    · rw [Function.update_of_ne here] at standing
      exact ok.saved tab load standing

theorem answered_respond {w : Loads} {load : Load} {response : Response} (other : Load) :
    (w.respond load response).answered other ↔ w.answered other ∨ other = load := by
  simp only [answered, respond, List.mem_append, List.mem_singleton, or_and_right, exists_or,
    exists_eq_left, decision]
  exact or_congr_right eq_comm

theorem step_standing {w w' : Loads} {event : LoadEvent} (ok : w.Standing)
    (stepped : w.step event = some w') : w'.Standing := by
  cases event with
  | downloadFile load url chosen =>
    simp only [step] at stepped
    split_ifs at stepped with old confirmed
    · obtain rfl := Option.some.inj stepped
      have new : w.loads load = none := not_not.mp old
      apply (ok.begin new ⟨url, true⟩).set (some load)
      intro other same
      obtain rfl := Option.some.inj same
      simp [saved, Loads.begin]
    · obtain rfl := Option.some.inj stepped
      exact ok
  | begin load url =>
    simp only [step] at stepped
    split_ifs at stepped with old
    obtain rfl := Option.some.inj stepped
    exact ok.begin (not_not.mp old) _
  | switchTab tab =>
    obtain rfl := Option.some.inj stepped
    exact { ok with }
  | respond load response =>
    simp only [step] at stepped
    split_ifs at stepped with refused
    obtain rfl := Option.some.inj stepped
    have reset := ok.set none (by simp)
    refine ⟨?_, reset.saved, ?_⟩
    · intro tab
      rw [respond, decidePolicyForResponse_flags]
      exact reset.flag tab
    · intro other answered
      rcases (answered_respond other).mp answered with before | rfl
      · exact ok.begun other before
      · exact (not_or.mp refused).1

/-! ## Decisions -/

theorem savedCount_respond (w : Loads) (load other : Load) (response : Response) :
    (w.respond load response).savedCount other = w.savedCount other +
      if load = other ∧ w.flags.savetargetas w.flags.currenttab = true then 1 else 0 := by
  simp only [savedCount, respond, List.filter_append, List.length_append]
  congr 1
  simp only [decision, List.filter_cons, List.filter_nil]
  split_ifs <;> simp_all

theorem savedCount_unanswered {w : Loads} {load : Load} (unanswered : ¬ w.answered load) :
    w.savedCount load = 0 := by
  rw [savedCount, List.length_eq_zero_iff, List.filter_eq_nil_iff]
  intro d member because
  simp only [decide_eq_true_eq] at because
  exact unanswered ⟨d, member, because.1⟩

/-- A load that begins is not answered yet. -/
theorem OnlyTargets.begin {w : Loads} (ok : w.Standing) (only : w.OnlyTargets) {load : Load}
    (new : w.loads load = none) (begun : Begun) : (w.begin load begun).OnlyTargets := by
  refine ⟨only.1, ?_⟩
  intro other saved answered
  have before := ok.begun other answered
  have different : other ≠ load := by
    rintro rfl
    exact before new
  apply only.2 other _ answered
  simpa [Loads.saved, Loads.begin, different] using saved

theorem OnlyTargets.respond {w : Loads} (ok : w.Standing) (only : w.OnlyTargets) {load : Load}
    {response : Response} (unanswered : ¬ w.answered load)
    (undisturbed : w.Undisturbed (.respond load response)) :
    (w.respond load response).OnlyTargets := by
  have flag := ok.flag w.flags.currenttab
  have intent : w.intent w.flags.currenttab = if w.saved load then some load else none := undisturbed
  constructor
  · intro d member because
    rcases List.mem_append.mp member with old | new
    · exact only.1 d old because
    · obtain rfl := List.mem_singleton.mp new
      change w.flags.savetargetas w.flags.currenttab = true at because
      change w.intent w.flags.currenttab = some load
      rw [flag, intent] at because
      rw [intent]
      split_ifs at because ⊢
      · rfl
      · cases because
  · intro other saved answered
    change w.saved other = true at saved
    rw [savedCount_respond]
    rcases (answered_respond other).mp answered with before | rfl
    · have different : load ≠ other := by
        rintro rfl
        exact unanswered before
      simpa [different] using only.2 other saved before
    · rw [savedCount_unanswered unanswered, flag, intent, if_pos saved]
      simp

theorem not_onlyTargets_respond {w : Loads} (ok : w.Standing) {load : Load} {response : Response}
    (unanswered : ¬ w.answered load) (disturbed : ¬ w.Undisturbed (.respond load response)) :
    ¬ (w.respond load response).OnlyTargets := by
  intro only
  have flag := ok.flag w.flags.currenttab
  have wrong : w.intent w.flags.currenttab ≠ if w.saved load then some load else none := disturbed
  cases intent : w.intent w.flags.currenttab with
  | none =>
    rw [intent] at flag wrong
    have saved : w.saved load = true := by
      by_contra other
      exact wrong (if_neg other).symm
    have once := only.2 load saved ((answered_respond load).mpr (.inr rfl))
    rw [savedCount_respond, savedCount_unanswered unanswered, flag] at once
    simp at once
  | some target =>
    have standing := ok.saved _ target intent
    rw [intent] at flag wrong
    have own : (w.decision load response).intent = some load :=
      only.1 (w.decision load response) (List.mem_append_right _ List.mem_cons_self) flag
    obtain rfl : target = load := Option.some.inj (intent.symm.trans own)
    exact wrong (if_pos standing).symm

theorem step_onlyTargets {w w' : Loads} {event : LoadEvent} (ok : w.Standing) (only : w.OnlyTargets)
    (undisturbed : w.Undisturbed event) (stepped : w.step event = some w') : w'.OnlyTargets := by
  cases event with
  | downloadFile load url chosen =>
    simp only [step] at stepped
    split_ifs at stepped with old confirmed
    · obtain rfl := Option.some.inj stepped
      exact only.begin ok (not_not.mp old) ⟨url, true⟩
    · obtain rfl := Option.some.inj stepped
      exact only
  | begin load url =>
    simp only [step] at stepped
    split_ifs at stepped with old
    obtain rfl := Option.some.inj stepped
    exact only.begin ok (not_not.mp old) _
  | switchTab tab =>
    obtain rfl := Option.some.inj stepped
    exact only
  | respond load response =>
    simp only [step] at stepped
    split_ifs at stepped with refused
    obtain rfl := Option.some.inj stepped
    exact only.respond ok (not_or.mp refused).2 undisturbed

theorem start_standing (tab : Nat) : (start tab).Standing := by
  constructor
  · intro tab
    rfl
  · intro tab load standing
    cases standing
  · rintro load ⟨d, member, -⟩
    cases member

theorem start_onlyTargets (tab : Nat) : (start tab).OnlyTargets := by
  constructor
  · intro d member
    cases member
  · rintro load - ⟨d, member, -⟩
    cases member

theorem reach_onlyTargets {tab : Nat} {w : Loads}
    (reached : Lib.Reach step Undisturbed (start tab) w) : w.Standing ∧ w.OnlyTargets := by
  apply reached.invariant (I := fun w => w.Standing ∧ w.OnlyTargets)
  · exact ⟨start_standing tab, start_onlyTargets tab⟩
  · rintro w event w' ⟨ok, only⟩ undisturbed stepped
    exact ⟨step_standing ok stepped, step_onlyTargets ok only undisturbed stepped⟩

/-- **Save target as.** As long as no response is decided that meets the call of another load in its
tab, or that has lost its own, only targets are downloaded and each of them once; the first
such response breaks it. -/
theorem save_target_downloads_target (tab : Nat) :
    (∀ w, Lib.Reach step Undisturbed (start tab) w → w.OnlyTargets) ∧
    ∀ w event w', Lib.Reach step Undisturbed (start tab) w → ¬ w.Undisturbed event →
      w.step event = some w' → ¬ w'.OnlyTargets := by
  constructor
  · intro w reached
    exact (reach_onlyTargets reached).2
  · intro w event w' reached disturbed stepped
    obtain ⟨ok, -⟩ := reach_onlyTargets reached
    cases event with
    | downloadFile | begin | switchTab => exact absurd trivial disturbed
    | respond load response =>
      simp only [step] at stepped
      split_ifs at stepped with refused
      obtain rfl := Option.some.inj stepped
      exact not_onlyTargets_respond ok (not_or.mp refused).2 disturbed

def page : Response := ⟨false, true, true, cString "text/html"⟩

/-- A page is shown in another tab while the target is loading. -/
theorem save_target_downloads_target_alone : ∃ w, w.decisions.length = 2 ∧
    Lib.Reach step Undisturbed (start 0) w ∧ w.OnlyTargets := by
  have decisions : (Lib.run (fun w a => if Undisturbed w a then step w a else none) (start 0)
      [.downloadFile 1 (cString "a") true, .switchTab 1, .begin 2 (cString "b"), .respond 2 page,
        .switchTab 0, .respond 1 page]).map (·.decisions.length) = some 2 := by
    decide
  obtain ⟨w, ran, count⟩ := Option.map_eq_some_iff.mp decisions
  have reached := Lib.Reach.of_run .start ran
  exact ⟨w, count, reached, (save_target_downloads_target 0).1 w reached⟩

/-- A frame of the page answers first, and is downloaded in place of the target. -/
theorem frame_downloaded_for_target :
    ∃ w, Lib.run step (start 0) [.begin 2 (cString "b"), .downloadFile 1 (cString "a") true,
      .respond 2 page] = some w ∧ ¬ w.OnlyTargets := by
  have saved : (Lib.run step (start 0) [.begin 2 (cString "b"), .downloadFile 1 (cString "a") true,
      .respond 2 page]).map (fun w => w.decisions.map fun d => (d.load, d.becauseSaved, d.intent)) =
        some [(2, true, some 1)] := by
    decide
  obtain ⟨w, ran, decisions⟩ := Option.map_eq_some_iff.mp saved
  refine ⟨w, ran, ?_⟩
  rintro ⟨own, -⟩
  have listed : (2, true, some 1) ∈ w.decisions.map fun d => (d.load, d.becauseSaved, d.intent) := by
    rw [decisions]
    exact List.mem_cons_self
  obtain ⟨d, member, same⟩ := List.mem_map.mp listed
  obtain ⟨load, because, intent⟩ : d.load = 2 ∧ d.becauseSaved = true ∧ d.intent = some 1 := by
    simpa using same
  have wrong := own d member because
  rw [intent, load] at wrong
  cases wrong

end Loads

end NetRider.Browser
