import NetRider.Gif.LZWSafety
import NetRider.Lib.LempelZivWelch

/-!
# The decoder and the textbook

On the codes that the textbook decoder reads, packed into blocks of any size, the rows that come
out are those of its letters.
-/

namespace NetRider.Gif

open Progress
open Lib.LempelZivWelch

variable {frame : GIFFrameContext} {client : Client}

/-- The codes of a data size. -/
def scheme (datasize : Nat) : Scheme UInt8 :=
  { literals := 2 ^ datasize, letter := UInt8.ofNat, limit := MAX_LZW_BITS }

/-- The first rows of an image. -/
def rowsOf (width count : Nat) (pixels : List UInt8) : List (List UInt8) :=
  (List.range count).map fun row => (pixels.drop (row * width)).take width

/-! ## The words in the tables -/

/-- The word of a code in the tables, from its last character on. -/
inductive Spells (prefixes : Nat → UInt16) (suffix : Nat → UInt8) (clearCode : Nat) :
    Nat → List UInt8 → Prop
  | literal {code : Nat} (below : code < clearCode) :
    Spells prefixes suffix clearCode code [suffix code]
  | entry {code : Nat} {word : List UInt8} (above : clearCode ≤ code)
    (earlier : (prefixes code).toNat < code)
    (rest : Spells prefixes suffix clearCode (prefixes code).toNat word) :
    Spells prefixes suffix clearCode code (word ++ [suffix code])

section

variable {prefixes : Nat → UInt16} {suffix : Nat → UInt8} {clearCode code : Nat}
  {word : List UInt8}

theorem Spells.length_le (spells : Spells prefixes suffix clearCode code word) :
    1 ≤ word.length ∧ word.length ≤ code + 1 := by
  induction spells with
  | literal below => simp
  | entry above earlier rest ih =>
    rw [List.length_append, List.length_singleton]
    omega

/-- A word stays when a later slot is written. -/
theorem Spells.define (spells : Spells prefixes suffix clearCode code word) {slot : Nat}
    (later : code < slot) (old : UInt16) (last : UInt8) :
    Spells (Function.update prefixes slot old) (Function.update suffix slot last) clearCode code
      word := by
  induction spells with
  | literal below =>
    rename_i code
    have same : suffix code = Function.update suffix slot last code :=
      (Function.update_of_ne later.ne last suffix).symm
    rw [same]
    exact .literal below
  | entry above earlier rest ih =>
    rename_i code word
    have same : suffix code = Function.update suffix slot last code :=
      (Function.update_of_ne later.ne last suffix).symm
    have link : prefixes code = Function.update prefixes slot old code :=
      (Function.update_of_ne later.ne old prefixes).symm
    rw [same]
    have further := ih (earlier.trans later)
    rw [link] at earlier further
    exact .entry above earlier further

end

/-- The stack from its bottom on. -/
def stacked (c : GIFLZWContext) : List UInt8 := (List.range c.stackp).map c.stack

/-- The loop over the prefixes stacks a word but for its first character. -/
theorem followPrefixes_spells {prefixes : Nat → UInt16} {suffix : Nat → UInt8} {clearCode code : Nat}
    {word : List UInt8} (spells : Spells prefixes suffix clearCode code word) (small : code < 4097) :
    ∀ {c : GIFLZWContext}, c.prefixes = prefixes → c.suffix = suffix → c.clearCode = clearCode →
      c.stackp + word.length ≤ MAX_BYTES →
      ∃ d first, followPrefixes c code = goesOn (d, first) ∧ first < clearCode ∧
        d = { c with stack := d.stack, stackp := d.stackp } ∧
        d.stackp + 1 = c.stackp + word.length ∧
        stacked d ++ [suffix first] = stacked c ++ word.reverse ∧
        word.head? = some (suffix first) := by
  induction spells with
  | literal below =>
    intro c _ _ clear _
    refine ⟨c, _, ?_, below, rfl, rfl, rfl, rfl⟩
    rw [followPrefixes, if_neg (by omega)]
  | entry above earlier rest ih =>
    rename_i code word
    intro c links characters clear room
    have length := rest.length_le
    rw [List.length_append, List.length_singleton] at room
    have good : ¬ (code ≥ MAX_BYTES ∨ code = (c.prefixes code).toNat) := by
      rw [links, MAX_BYTES]
      omega
    have more : c.stackp + 1 ≠ MAX_BYTES := by omega
    obtain ⟨d, first, followed, below, same, full, stack, head⟩ := @ih (by omega)
      { c with stack := Function.update c.stack c.stackp (c.suffix code), stackp := c.stackp + 1 }
      links characters clear (by dsimp only; omega)
    refine ⟨d, first, ?_, below, same, ?_, ?_, ?_⟩
    · have link : c.prefixes code = prefixes code := by rw [links]
      rw [followPrefixes, if_pos (by omega), if_neg good, if_pos (by omega), if_neg more, link]
      exact followed
    · rw [full, List.length_append, List.length_singleton]
      dsimp only
      omega
    · rw [stack, stacked, map_range_update, characters, List.reverse_append, stacked]
      simp
    · rw [List.head?_append, head]
      rfl

/-! ## The dictionary -/

/-- The tables hold the dictionary of the textbook decoder. -/
structure Tables (frame : GIFFrameContext) (d : Decoder UInt8) (c : GIFLZWContext) : Prop where
  avail : c.avail = (scheme frame.datasize).next d
  codesize : c.codesize = (scheme frame.datasize).width d
  codemask : c.codemask = 2 ^ c.codesize - 1
  words : ∀ {code : Nat} {word : List UInt8}, (scheme frame.datasize).word d code = some word →
    Spells c.prefixes c.suffix c.clearCode code word

/-- The old code is the one of the last word. -/
structure Matches (frame : GIFFrameContext) (d : Decoder UInt8) (c : GIFLZWContext) : Prop where
  tables : Tables frame d c
  first : d.previous = none → c.oldcode = none
  before : ∀ {previous : List UInt8}, d.previous = some previous → ∃ old, c.oldcode = some old ∧
    (scheme frame.datasize).word d old = some previous ∧ previous.head? = some c.firstchar

theorem take_one {word : List UInt8} {first : UInt8} (head : word.head? = some first) :
    word.take 1 = [first] := by
  cases word with
  | nil => simp at head
  | cons letter word =>
    rw [List.head?_cons, Option.some.injEq] at head
    rw [head]
    rfl

/-- The literals stand in the suffix table. -/
theorem Tables.suffix {d : Decoder UInt8} {c : GIFLZWContext} (tables : Tables frame d c)
    (codes : Codes frame c) {code : Nat} (literal : code < 2 ^ frame.datasize) :
    c.suffix code = UInt8.ofNat code := by
  have word : (scheme frame.datasize).word d code = some [UInt8.ofNat code] := word_literal literal
  have clear := codes.clearCode
  generalize spelt : [UInt8.ofNat code] = letters at word
  cases tables.words word with
  | literal below => exact (List.cons.inj spelt).1.symm
  | entry above earlier rest => omega

theorem width_start {datasize : Nat} (least : 2 ≤ datasize) (most : datasize ≤ 8) :
    (scheme datasize).width start = datasize + 1 := by
  have four : 2 ^ 2 ≤ 2 ^ datasize := Nat.pow_le_pow_right (by decide) least
  have double : 2 ^ (datasize + 1) = 2 ^ datasize + 2 ^ datasize := by rw [Nat.pow_succ]; omega
  have size : Nat.size (2 ^ datasize + 2) = datasize + 1 := by
    apply Nat.le_antisymm
    · exact Nat.size_le.mpr (by omega)
    · exact Nat.lt_size.mpr (by omega)
  have next : (scheme datasize).next (start : Decoder UInt8) = 2 ^ datasize + 2 := rfl
  rw [Scheme.width, next, size]
  exact Nat.min_eq_right (show datasize + 1 ≤ 12 by omega)

/-- A word of the dictionary that is only the literals. -/
theorem word_start {datasize code : Nat} {word : List UInt8}
    (spells : (scheme datasize).word start code = some word) :
    code < 2 ^ datasize ∧ word = [UInt8.ofNat code] := by
  unfold Scheme.word at spells
  split at spells
  case isTrue literal => exact ⟨literal, (Option.some.inj spells).symm⟩
  case isFalse =>
    split at spells
    · simp at spells
    · simp [start] at spells

/-- The dictionary behind a clear code. -/
theorem Tables.clear {c : GIFLZWContext} (least : 2 ≤ frame.datasize) (most : frame.datasize ≤ 8)
    (clearCode : c.clearCode = 2 ^ frame.datasize)
    (suffix : ∀ code < 2 ^ frame.datasize, c.suffix code = UInt8.ofNat code)
    (codesize : c.codesize = frame.datasize + 1) (codemask : c.codemask = 1 <<< c.codesize - 1)
    (avail : c.avail = 2 ^ frame.datasize + 2) : Tables frame start c := by
  refine ⟨avail, codesize.trans (width_start least most).symm, ?_, ?_⟩
  · rw [codemask, Nat.one_shiftLeft]
  · intro code word spells
    obtain ⟨literal, rfl⟩ := word_start spells
    rw [← suffix code literal]
    exact .literal (by omega)

/-- Whether the codes get longer is seen from the mask. -/
theorem width_grow {d : Decoder UInt8} {c : GIFLZWContext} (tables : Tables frame d c)
    (room : c.avail < 4096) {previous word : List UInt8} :
    let s := scheme frame.datasize
    if (c.avail + 1) &&& c.codemask = 0 ∧ c.avail + 1 < 4096 then
      s.width (s.grow d previous word) = c.codesize + 1 ∧
        c.codemask + (c.avail + 1) = 2 ^ (c.codesize + 1) - 1
    else s.width (s.grow d previous word) = c.codesize := by
  intro s
  have limit : (2 : Nat) ^ s.limit = 4096 := rfl
  have avail := tables.avail
  have space : s.next d < 2 ^ s.limit := by rw [limit, ← avail]; exact room
  have codesize : c.codesize = Nat.size c.avail := by
    rw [tables.codesize, width_eq space, avail]
  have below : c.avail < 2 ^ c.codesize := by
    rw [codesize]
    exact Nat.lt_size_self _
  have grown : s.width (s.grow d previous word) = min 12 (Nat.size (c.avail + 1)) := by
    rw [Scheme.width, next_grow, if_pos space, ← avail]
    rfl
  have short : c.codesize ≤ 12 := by
    rw [codesize]
    exact Nat.size_le.mpr room
  rw [grown, tables.codemask, Nat.and_two_pow_sub_one_eq_mod, size_succ, ← codesize]
  by_cases whole : c.avail + 1 = 2 ^ c.codesize
  · rw [if_pos whole, ← whole, Nat.mod_self]
    split
    case isTrue longer =>
      have shorter : c.codesize < 12 := by
        by_contra twelve
        have same : c.codesize = 12 := by omega
        rw [same] at whole
        omega
      refine ⟨Nat.min_eq_right shorter, ?_⟩
      rw [Nat.pow_succ, ← whole]
      omega
    case isFalse last =>
      have twelve : c.codesize = 12 := by
        by_contra other
        have smaller : 2 ^ c.codesize ≤ 2 ^ 11 := Nat.pow_le_pow_right (by decide) (by omega)
        omega
      rw [twelve]
      rfl
  · have nonzero : (c.avail + 1) % 2 ^ c.codesize ≠ 0 := by
      rw [Nat.mod_eq_of_lt (by omega)]
      omega
    rw [if_neg whole, if_neg fun both => nonzero both.1]
    exact Nat.min_eq_right short

/-- `define` adds the entry that the textbook decoder adds. -/
theorem define_grows {d : Decoder UInt8} {c : GIFLZWContext} {old : Nat}
    {previous word : List UInt8} {returns : Bool → GIFLZWContext → Prop}
    (tables : Tables frame d c) (codes : Codes frame c)
    (before : (scheme frame.datasize).word d old = some previous)
    (head : word.head? = some c.firstchar) :
    (define c old).Ends (Tables frame ((scheme frame.datasize).grow d previous word)) returns := by
  have limit : (2 : Nat) ^ (scheme frame.datasize).limit = 4096 := rfl
  have avail := tables.avail
  have earlier := word_lt_next before
  have bounds := codes.growth.bounds
  have clear := codes.clearCode
  unfold define
  split
  case isFalse full =>
    have frozen : (scheme frame.datasize).next d = 4096 := by omega
    refine ⟨?_, ?_, tables.codemask, ?_⟩
    · rw [next_grow, limit, if_neg (by omega)]
      exact avail
    · rw [tables.codesize, Scheme.width, Scheme.width, next_grow, limit, if_neg (by omega)]
    · intro code spelt spells
      rw [word_grow, limit, if_neg (by omega)] at spells
      exact tables.words spells
  case isTrue room =>
    refine (inTable_ends (show c.avail < 4097 by omega)).bind fun _ _ => ?_
    have width := @width_grow frame d c tables room previous word
    have next : (scheme frame.datasize).next ((scheme frame.datasize).grow d previous word) =
        c.avail + 1 := by
      rw [next_grow, limit, if_pos (by omega), avail]
    have words : ∀ {code : Nat} {spelt : List UInt8}, (scheme frame.datasize).word
        ((scheme frame.datasize).grow d previous word) code = some spelt →
        Spells (Function.update c.prefixes c.avail (UInt16.ofNat old))
          (Function.update c.suffix c.avail c.firstchar) c.clearCode code spelt := by
      intro code spelt spells
      rw [word_grow, limit] at spells
      split at spells
      case isFalse =>
        exact (tables.words spells).define (avail ▸ word_lt_next spells) _ _
      case isTrue free =>
        obtain ⟨rfl, -⟩ := free
        rw [← Option.some.inj spells, take_one head, ← avail]
        have back : (Function.update c.prefixes c.avail (UInt16.ofNat old) c.avail).toNat = old := by
          rw [Function.update_self, UInt16.toNat_ofNat']
          exact Nat.mod_eq_of_lt (by omega)
        have last : Function.update c.suffix c.avail c.firstchar c.avail = c.firstchar :=
          Function.update_self ..
        have rest := (tables.words before).define (avail ▸ earlier) (UInt16.ofNat old) c.firstchar
        have entry := @Spells.entry (Function.update c.prefixes c.avail (UInt16.ofNat old))
          (Function.update c.suffix c.avail c.firstchar) c.clearCode c.avail previous
        rw [back, last] at entry
        refine entry ?_ (by omega) rest
        rw [avail, clear, Scheme.next]
        exact Nat.le_trans (Nat.le_add_right _ 2) (Nat.le_add_right _ _)
    dsimp only
    split
    case isTrue longer =>
      rw [if_pos longer] at width
      exact ⟨next.symm, width.1.symm, width.2, words⟩
    case isFalse same =>
      rw [if_neg same] at width
      exact ⟨next.symm, width.symm, tables.codemask, words⟩

/-! ## One code -/

/-- What the decoder returns with while it writes an image. -/
structure Delivered (frame : GIFFrameContext) (client : Client) (pixels : List UInt8)
    (result : Bool) (d : GIFLZWContext) : Prop where
  image : d.rows.flatten <+: pixels
  widths : ∀ row ∈ d.rows, row.length = frame.width
  complete : result = true → d.rowsRemaining = 0 ∧ d.rows.length = frame.height
  refused : result = false →
    ∃ before report, d.reports = before ++ [report] ∧ client before report = false

theorem Handed.delivered {c d : GIFLZWContext} {word pixels : List UInt8} {result : Bool}
    (handed : Handed frame client c word result d) (image : written c ++ word <+: pixels) :
    Delivered frame client pixels result d :=
  ⟨handed.image.trans image, handed.widths, handed.complete, handed.refused⟩

/-- The first part of `decodeCode` stacks the word of the code. -/
theorem follow_spelled {d : Decoder UInt8} {c : GIFLZWContext} {code old : Nat}
    {previous word : List UInt8} (tables : Tables frame d c) (codes : Codes frame c)
    (empty : c.stackp = 0) (before : (scheme frame.datasize).word d old = some previous)
    (head : previous.head? = some c.firstchar)
    (spelled : (scheme frame.datasize).spelled d previous code = some word) :
    ∃ start from_ e first, pushUndefined c old code = goesOn (start, from_) ∧
      followPrefixes start from_ = goesOn (e, first) ∧ first < c.clearCode ∧
      e = { c with stack := e.stack, stackp := e.stackp } ∧ e.stackp < MAX_BYTES ∧
      (stacked e ++ [c.suffix first]).reverse = word ∧ word.head? = some (c.suffix first) := by
  have bounds := codes.growth.bounds
  have avail := tables.avail
  have earlier := word_lt_next before
  have none : stacked c = [] := by rw [stacked, empty]; rfl
  unfold Scheme.spelled at spelled
  split at spelled
  case isTrue free =>
    have small : code < 4096 := free.2
    have length := (tables.words before).length_le
    have undefined : pushUndefined c old code = goesOn ({ c with
        stack := Function.update c.stack c.stackp c.firstchar, stackp := c.stackp + 1 }, old) := by
      rw [pushUndefined, if_pos (by omega), push, inTable, if_pos (by rw [empty]; decide)]
      simp [empty, MAX_BYTES]
    obtain ⟨e, first, followed, below, same, full, stack, start⟩ :=
      @followPrefixes_spells _ _ _ _ _ (tables.words before) (by omega) { c with
        stack := Function.update c.stack c.stackp c.firstchar, stackp := c.stackp + 1 }
        rfl rfl rfl (by dsimp only [MAX_BYTES]; omega)
    dsimp only [MAX_BYTES] at full
    refine ⟨_, _, e, first, undefined, followed, below, same, by rw [MAX_BYTES]; omega, ?_, ?_⟩
    · have one : stacked { c with
          stack := Function.update c.stack c.stackp c.firstchar, stackp := c.stackp + 1 } =
          [c.firstchar] := by
        rw [stacked, map_range_update, ← stacked, none]
        rfl
      rw [stack, one, List.reverse_append, List.reverse_reverse, ← Option.some.inj spelled,
        take_one head]
      rfl
    · rw [← Option.some.inj spelled, List.head?_append, start]
      rfl
  case isFalse =>
    have small := word_lt_next spelled
    have length := (tables.words spelled).length_le
    have known : pushUndefined c old code = goesOn (c, code) := by
      rw [pushUndefined, if_neg (by omega)]
    obtain ⟨e, first, followed, below, same, full, stack, start⟩ :=
      @followPrefixes_spells _ _ _ _ _ (tables.words spelled) (by omega) c rfl rfl rfl
        (by rw [MAX_BYTES]; omega)
    refine ⟨_, _, e, first, known, followed, below, same, by rw [MAX_BYTES]; omega, ?_, start⟩
    rw [stack, none, List.reverse_append, List.reverse_reverse]
    simp

theorem decodeCode_matches {d : Decoder UInt8} {c : GIFLZWContext} {code old : Nat}
    {previous word pixels : List UInt8} (ready : Ready frame c) (tables : Tables frame d c)
    (before : (scheme frame.datasize).word d old = some previous)
    (head : previous.head? = some c.firstchar)
    (spelled : (scheme frame.datasize).spelled d previous code = some word)
    (image : written c ++ word <+: pixels) :
    (decodeCode frame client c old code).Ends
      (fun e => Matches frame ((scheme frame.datasize).grow d previous word) e ∧
        written e = written c ++ word)
      (Delivered frame client pixels) := by
  obtain ⟨codes, rows, empty⟩ := ready
  obtain ⟨start, from_, e, first, undefined, followed, below, same, room, stack, starts⟩ :=
    follow_spelled tables codes empty before head spelled
  have small := clearCode_small codes
  have suffix : e.suffix = c.suffix := by rw [same]
  unfold decodeCode
  dsimp only
  rw [undefined, pure_bind]
  dsimp only
  rw [followed, pure_bind]
  dsimp only
  refine (inTable_ends (show first < 4097 by omega)).bind fun _ _ => ?_
  refine Ends.bind (push_ends (by exact room)) fun f pushed => ?_
  -- the stack holds the word, the last character at its bottom
  have full : stacked f = stacked e ++ [c.suffix first] := by
    rw [pushed, stacked, map_range_update, suffix]
    rfl
  have firstchar : f.firstchar = c.suffix first := by rw [pushed, suffix]
  have codesF : Codes frame f := by
    rw [pushed, same]
    exact ⟨codes.datasize, codes.clearCode, codes.growth, codes.oldcode, codes.bits, codes.datum,
      codes.turns⟩
  have tablesF : Tables frame d f := by
    rw [pushed, same]
    exact ⟨tables.avail, tables.codesize, tables.codemask, tables.words⟩
  have defined := @define_ends frame f old (Delivered frame client pixels) codesF
  refine (defined.and (define_grows tablesF codesF before (by rw [firstchar]; exact starts))).bind ?_
  rintro g ⟨⟨codesG, kept⟩, tablesG⟩
  have rowsG : Rows frame { g with oldcode := some code } := by
    rw [kept, pushed, same]
    exact ⟨rows.place, rows.position, rows.missing, rows.count, rows.widths⟩
  have writtenG : written { g with oldcode := some code } = written c := by
    rw [kept, pushed, same]
    rfl
  have stackG : (List.range g.stackp).map g.stack = stacked f := by
    rw [kept]
    rfl
  have deep : g.stackp = e.stackp + 1 := by rw [kept, pushed]
  have draws := @copyStack_draws frame client g.stackp { g with oldcode := some code }
    (by omega) (by omega) rowsG
  dsimp only at draws
  rw [stackG, full, stack] at draws
  refine draws.mono ?_ fun result h handed => handed.delivered (by rw [writtenG]; exact image)
  intro h drawn
  have tablesH : Tables frame ((scheme frame.datasize).grow d previous word) h := by
    rw [drawn.same]
    exact ⟨tablesG.avail, tablesG.codesize, tablesG.codemask, tablesG.words⟩
  have firstcharH : h.firstchar = c.suffix first := by
    rw [drawn.same]
    exact (congrArg GIFLZWContext.firstchar kept).trans firstchar
  refine ⟨⟨tablesH, fun none => by simp [Scheme.grow] at none, ?_⟩, by rw [drawn.image, writtenG]⟩
  intro last same'
  have lastWord : word = last := Option.some.inj same'
  subst lastWord
  refine ⟨code, by rw [drawn.same]; rfl, ?_, by rw [firstcharH]; exact starts⟩
  rw [word_grow]
  unfold Scheme.spelled at spelled
  split at spelled
  case isFalse other => rw [if_neg other, spelled]
  case isTrue free =>
    rw [if_pos free, take_one starts]
    have letters := Option.some.inj spelled
    have heads := starts
    rw [← letters, List.head?_append, head] at heads
    rw [← letters, take_one head, ← Option.some.inj heads]

theorem processCode_matches {d d' : Decoder UInt8} {c : GIFLZWContext} {code : Nat}
    {word pixels : List UInt8} (least : 2 ≤ frame.datasize) (most : frame.datasize ≤ 8)
    (ready : Ready frame c) (matching : Matches frame d c)
    (notEnd : code ≠ (scheme frame.datasize).endCode)
    (taken : (scheme frame.datasize).step d code = some (word, d'))
    (image : written c ++ word <+: pixels) :
    (processCode frame client c code).Ends
      (fun e => Matches frame d' e ∧ written e = written c ++ word)
      (Delivered frame client pixels) := by
  have codes := ready.codes
  have rows := ready.rows
  have tables := matching.tables
  have clearCode : c.clearCode = (scheme frame.datasize).clearCode := codes.clearCode
  unfold processCode
  split
  case isTrue clear =>
    rw [clear, clearCode, step_clear] at taken
    obtain ⟨rfl, rfl⟩ := Prod.mk.inj (Option.some.inj taken)
    refine ⟨⟨Tables.clear least most codes.clearCode
      (fun code literal => tables.suffix codes literal) rfl rfl ?_, fun _ => rfl, ?_⟩, ?_⟩
    · dsimp only
      rw [codes.clearCode]
    · intro previous none
      simp [start] at none
    · rw [List.append_nil]
      rfl
  case isFalse notClear =>
    rw [clearCode] at notClear
    have notEnd' : code ≠ c.clearCode + 1 := by rw [clearCode]; exact notEnd
    rw [if_neg notEnd']
    cases previous : d.previous with
    | none =>
      obtain ⟨literal, after⟩ := step_first notClear previous taken
      obtain ⟨rfl, rfl⟩ := Prod.mk.inj after
      have letter : c.suffix code = UInt8.ofNat code := tables.suffix codes literal
      have small : 2 ^ frame.datasize ≤ 2 ^ 8 := Nat.pow_le_pow_right (by decide) most
      rw [matching.first previous]
      have below : code < 2 ^ frame.datasize := literal
      refine (inTable_ends (show code < 4097 by omega)).bind fun _ _ => ?_
      refine (putPixel_draws rows).mono (fun _ => id)
        (fun _ _ handed => handed.delivered (by rw [letter]; exact image)) |>.bind ?_
      intro e drawn
      refine ⟨⟨?_, fun none => by simp at none, ?_⟩, ?_⟩
      · rw [drawn.same]
        exact ⟨tables.avail, tables.codesize, tables.codemask, tables.words⟩
      · intro last same
        rw [← Option.some.inj same]
        exact ⟨code, rfl, word_literal literal, rfl⟩
      · rw [← show c.suffix code = (scheme frame.datasize).letter code from letter]
        exact drawn.image
    | some previous' =>
      obtain ⟨spelled, after⟩ := step_word notClear previous taken
      dsimp only at spelled after
      subst after
      obtain ⟨old, oldcode, before, head⟩ := matching.before previous
      rw [oldcode]
      exact decodeCode_matches ready tables before head spelled image

/-! ## All codes -/

theorem length_flatten_of_widths {rows : List (List UInt8)} {width : Nat}
    (widths : ∀ row ∈ rows, row.length = width) : rows.flatten.length = rows.length * width := by
  induction rows with
  | nil => simp
  | cons row rows ih =>
    rw [List.flatten_cons, List.length_append, List.length_cons, Nat.succ_mul,
      ih fun other among => widths other (List.mem_cons_of_mem row among),
      widths row (List.mem_cons_self ..), Nat.add_comm]

/-- As long as a row is missing, so is a pixel. -/
theorem written_short {c : GIFLZWContext} (rows : Rows frame c) :
    (written c).length < frame.width * frame.height := by
  have position := rows.position
  have missing := rows.missing
  have count := rows.count
  have fewer : (c.rows.length + 1) * frame.width ≤ frame.height * frame.width :=
    Nat.mul_le_mul_right _ (by omega)
  rw [Nat.succ_mul, Nat.mul_comm frame.height] at fewer
  rw [written, List.length_append, length_flatten_of_widths rows.widths, List.length_map,
    List.length_range]
  omega

/-- The decoder has read what comes before `codes`, which the bits in `datum` and the bytes behind
it hold. -/
structure Follows (frame : GIFFrameContext) (pixels : List UInt8) (bytes : List UInt8)
    (d : Decoder UInt8) (codes : List Nat) (c : GIFLZWContext) : Prop where
  ready : Ready frame c
  matching : Matches frame d c
  image : ∃ rest, (scheme frame.datasize).decode d codes = some rest ∧ pixels = written c ++ rest
  holds : (scheme frame.datasize).Holds d codes (c.bits + 8 * bytes.length)
    (c.datum + 2 ^ c.bits * ofBytes bytes)

/-- There is a next code. -/
theorem Follows.code {pixels bytes : List UInt8} {d : Decoder UInt8} {codes : List Nat}
    {c : GIFLZWContext} (follows : Follows frame pixels bytes d codes c)
    (enough : frame.width * frame.height ≤ pixels.length) :
    ∃ code codes' word d' rest, codes = code :: codes' ∧ code ≠ (scheme frame.datasize).endCode ∧
      (scheme frame.datasize).step d code = some (word, d') ∧
      (scheme frame.datasize).decode d' codes' = some rest ∧
      pixels = written c ++ (word ++ rest) := by
  obtain ⟨rest, decodes, rfl⟩ := follows.image
  have short := written_short follows.ready.rows
  rw [List.length_append] at enough
  cases codes with
  | nil =>
    rw [Scheme.decode] at decodes
    rw [← Option.some.inj decodes, List.length_nil] at enough
    omega
  | cons code codes =>
    by_cases isEnd : code = (scheme frame.datasize).endCode
    · rw [Scheme.decode, if_pos isEnd] at decodes
      rw [← Option.some.inj decodes, List.length_nil] at enough
      omega
    · obtain ⟨word, d', later, taken, further, rfl⟩ := decode_cons isEnd decodes
      exact ⟨code, codes, word, d', later, rfl, isEnd, taken, further, rfl⟩

/-- The low bits of a number with more bits above. -/
theorem low_bits {codesize bits : Nat} (fewer : codesize ≤ bits) (datum above : Nat) :
    (datum + 2 ^ bits * above) % 2 ^ codesize = datum % 2 ^ codesize ∧
      (datum + 2 ^ bits * above) / 2 ^ codesize =
        datum >>> codesize + 2 ^ (bits - codesize) * above := by
  have split : 2 ^ bits = 2 ^ codesize * 2 ^ (bits - codesize) := by
    rw [← Nat.pow_add, Nat.add_sub_cancel' fewer]
  rw [split, Nat.mul_assoc, Nat.shiftRight_eq_div_pow]
  exact ⟨Nat.add_mul_mod_self_left .., Nat.add_mul_div_left _ _ (Nat.two_pow_pos _)⟩

/-- A code of the textbook decoder fits its width. -/
theorem fits_step {s : Scheme UInt8} {d d' : Decoder UInt8} {code : Nat} {word : List UInt8}
    (full : s.next d ≤ 2 ^ s.limit) (taken : s.step d code = some (word, d')) :
    code < 2 ^ s.width d := by
  by_cases clear : code = s.clearCode
  · refine fits_width full ?_
    rw [clear, Scheme.next, Scheme.clearCode]
    omega
  cases previous : d.previous with
  | none =>
    have literal := (step_first clear previous taken).1
    refine fits_width full ?_
    rw [Scheme.next]
    omega
  | some last =>
    have spelled := (step_word clear previous taken).1
    unfold Scheme.spelled at spelled
    split at spelled
    case isFalse => exact fits_width full (word_lt_next spelled)
    case isTrue free =>
      rw [width_eq (free.1 ▸ free.2), free.1]
      exact Nat.lt_size_self _

/-- The decoder between two bytes. -/
structure Following (frame : GIFFrameContext) (pixels bytes : List UInt8) (c : GIFLZWContext) :
    Prop where
  follows : ∃ d codes, Follows frame pixels bytes d codes c
  few : c.bits < c.codesize

theorem readCodes_follows (least : 2 ≤ frame.datasize) (most : frame.datasize ≤ 8)
    {pixels bytes : List UInt8} (enough : frame.width * frame.height ≤ pixels.length) :
    ∀ {turns : Nat} {c : GIFLZWContext} {d : Decoder UInt8} {codes : List Nat}, c.bits < turns →
      Follows frame pixels bytes d codes c →
      (readCodes frame client c turns).Ends (Following frame pixels bytes)
        (Delivered frame client pixels) := by
  intro turns
  induction turns with
  | zero =>
    intro c d codes impossible
    omega
  | succ turns ih =>
    intro c d codes more follows
    have ready := follows.ready
    have tables := follows.matching.tables
    have turn := ready.turn
    unfold readCodes
    dsimp only
    split
    case isFalse waiting =>
      have tables' : Tables frame d { c with turns := c.turns ++ [(c.codesize, c.bits)] } :=
        ⟨tables.avail, tables.codesize, tables.codemask, tables.words⟩
      refine ⟨⟨d, codes, turn, ⟨tables', follows.matching.first, follows.matching.before⟩,
        follows.image, follows.holds⟩, ?_⟩
      dsimp only
      omega
    case isTrue whole =>
      have bounds := ready.codes.growth.bounds
      obtain ⟨code, codes', word, d', rest, rfl, notEnd, taken, further, image⟩ :=
        follows.code enough
      have full : (scheme frame.datasize).next d ≤ 2 ^ (scheme frame.datasize).limit := by
        rw [← tables.avail]
        exact bounds.2.2.2
      obtain ⟨-, low, holds⟩ := holds_cons taken (fits_step full taken) follows.holds
      obtain ⟨lowBits, highBits⟩ := low_bits whole c.datum (ofBytes bytes)
      rw [← tables.codesize] at low holds
      rw [lowBits] at low
      rw [highBits] at holds
      have same : c.datum &&& c.codemask = code := by
        rw [tables.codemask, Nat.and_two_pow_sub_one_eq_mod, low]
      have readyTaken := ready.take whole
      have tablesTaken : Tables frame d { c with
          turns := c.turns ++ [(c.codesize, c.bits)]
          datum := c.datum >>> c.codesize
          bits := c.bits - c.codesize } :=
        ⟨tables.avail, tables.codesize, tables.codemask, tables.words⟩
      have small : code < 4096 := by
        rw [← same]
        exact Nat.lt_of_le_of_lt Nat.and_le_right bounds.2.2.1
      have step := @processCode_matches frame client d d' _ code word pixels least most readyTaken
        ⟨tablesTaken, follows.matching.first, follows.matching.before⟩ notEnd taken (by
          rw [image, ← List.append_assoc]
          exact List.prefix_append _ _)
      rw [same]
      refine ((processCode_ends readyTaken small).and step).bind ?_
      rintro e ⟨⟨readyE, bits, datum⟩, matchingE, writtenE⟩
      dsimp only at bits datum
      refine @ih e d' codes' (by omega) ⟨readyE, matchingE, ⟨rest, further, ?_⟩, ?_⟩
      · rw [image, writtenE, List.append_assoc]
        rfl
      · have count : c.bits - c.codesize + 8 * bytes.length =
            c.bits + 8 * bytes.length - c.codesize := by omega
        rw [bits, datum, count]
        exact holds

theorem feedByte_follows (least : 2 ≤ frame.datasize) (most : frame.datasize ≤ 8)
    {pixels bytes : List UInt8} {byte : UInt8} {c : GIFLZWContext}
    (enough : frame.width * frame.height ≤ pixels.length)
    (following : Following frame pixels (byte :: bytes) c) :
    (feedByte frame client c byte).Ends (Following frame pixels bytes)
      (Delivered frame client pixels) := by
  obtain ⟨⟨d, codes, ready, ⟨tables, first, before⟩, image, holds⟩, few⟩ := following
  have number : c.datum + 2 ^ c.bits * ofBytes (byte :: bytes) =
      c.datum + byte.toNat <<< c.bits + 2 ^ (c.bits + 8) * ofBytes bytes := by
    rw [ofBytes, Nat.shiftLeft_eq, Nat.pow_add]
    ring
  have count : c.bits + 8 * (byte :: bytes).length = c.bits + 8 + 8 * bytes.length := by
    rw [List.length_cons]
    omega
  rw [number, count] at holds
  exact readCodes_follows least most enough (Nat.lt_succ_self _)
    ⟨ready.feed few byte, ⟨⟨tables.avail, tables.codesize, tables.codemask, tables.words⟩, first,
      before⟩, image, holds⟩

theorem feedBytes_follows (least : 2 ≤ frame.datasize) (most : frame.datasize ≤ 8)
    {pixels later bytes : List UInt8} (enough : frame.width * frame.height ≤ pixels.length) :
    ∀ {c : GIFLZWContext}, Following frame pixels (bytes ++ later) c →
      (feedBytes frame client c bytes).Ends (Following frame pixels later)
        (Delivered frame client pixels) := by
  induction bytes with
  | nil =>
    intro c following
    exact following
  | cons byte bytes ih =>
    intro c following
    exact (feedByte_follows least most enough following).bind fun d further => ih further

/-- The bytes do not end before the rows. -/
theorem Following.byte {pixels bytes : List UInt8} {c : GIFLZWContext}
    (following : Following frame pixels bytes c)
    (enough : frame.width * frame.height ≤ pixels.length) : bytes ≠ [] := by
  rintro rfl
  obtain ⟨⟨d, codes, follows⟩, few⟩ := following
  obtain ⟨code, codes', word, d', rest, rfl, -, taken, -⟩ := follows.code enough
  have full : (scheme frame.datasize).next d ≤ 2 ^ (scheme frame.datasize).limit := by
    rw [← follows.matching.tables.avail]
    exact follows.ready.codes.growth.bounds.2.2.2
  have wide := (holds_cons taken (fits_step full taken) follows.holds).1
  rw [← follows.matching.tables.codesize, List.length_nil] at wide
  omega

theorem decodeBlocks_done {c : GIFLZWContext} (done : c.rowsRemaining = 0) (current : Nat)
    (contents : List (Option (List UInt8))) :
    decodeBlocks frame client c current contents = .ok (true, current, c) := by
  cases contents with
  | nil => rfl
  | cons content contents =>
    unfold decodeBlocks
    rw [if_pos done]

theorem decodeBlocks_follows (least : 2 ≤ frame.datasize) (most : frame.datasize ≤ 8)
    {pixels : List UInt8} (enough : frame.width * frame.height ≤ pixels.length)
    {blocks : List (List UInt8)} : ∀ {c : GIFLZWContext} (current : Nat),
      Following frame pixels blocks.flatten c →
      ∃ result current' d,
        decodeBlocks frame client c current (blocks.map some) = .ok (result, current', d) ∧
          Delivered frame client pixels result d := by
  induction blocks with
  | nil =>
    intro c current following
    exact absurd List.flatten_nil (following.byte enough)
  | cons block blocks ih =>
    intro c current following
    obtain ⟨d, codes, follows⟩ := following.follows
    have rows := follows.ready.rows
    have missing := rows.missing
    have position := rows.position
    rw [List.flatten_cons] at following
    have fed := @feedBytes_follows frame client least most pixels blocks.flatten block enough c
      following
    have unfinished : ¬ c.rowsRemaining = 0 := by omega
    have inside : ¬ c.rowPosition = frame.width := by omega
    simp only [List.map_cons, decodeBlocks, if_neg unfinished, doLZW, if_neg inside]
    cases ends : feedBytes frame client c block with
    | fault f =>
      rw [ends] at fed
      exact fed.elim
    | goesOn e =>
      rw [ends] at fed
      exact ih (current + 1) fed
    | returned result e =>
      rw [ends] at fed
      cases result with
      | false => exact ⟨false, current, e, rfl, fed⟩
      | true => exact ⟨true, current + 1, e, decodeBlocks_done (fed.complete rfl).1 _ _, fed⟩

theorem rows_eq {width : Nat} {rows : List (List UInt8)} : ∀ {pixels : List UInt8},
    (∀ row ∈ rows, row.length = width) → rows.flatten <+: pixels →
      rows = rowsOf width rows.length pixels := by
  induction rows with
  | nil =>
    intro pixels _ _
    rfl
  | cons row rows ih =>
    intro pixels widths image
    obtain ⟨rest, rfl⟩ := image
    have length := widths row (List.mem_cons_self ..)
    rw [List.flatten_cons, List.append_assoc]
    have later := @ih (rows.flatten ++ rest)
      (fun other among => widths other (List.mem_cons_of_mem row among)) (List.prefix_append ..)
    rw [rowsOf, List.length_cons, List.range_succ_eq_map, List.map_cons, List.map_map,
      Nat.zero_mul, List.drop_zero, ← length, List.take_left]
    congr 1
    refine later.trans (List.map_congr_left fun index _ => ?_)
    rw [Function.comp_apply, Nat.succ_mul, Nat.add_comm, ← List.drop_drop, length.symm,
      List.drop_left]

theorem prepareToDecode_rows {prefixes : Nat → UInt16} {stack rowBuffer : Nat → UInt8}
    {c : GIFLZWContext} (prepared : prepareToDecode frame prefixes stack rowBuffer = some c) :
    c.rowsRemaining = frame.height ∧ c.rows = [] := by
  unfold prepareToDecode at prepared
  split at prepared
  case isTrue => simp at prepared
  case isFalse =>
    dsimp only at prepared
    split at prepared
    case isTrue => simp at prepared
    case isFalse =>
      cases prepared
      exact ⟨rfl, rfl⟩

theorem prepareToDecode_follows (least : 2 ≤ frame.datasize) (most : frame.datasize ≤ 8)
    {prefixes : Nat → UInt16} {stack rowBuffer : Nat → UInt8} {c : GIFLZWContext}
    {codes : List Nat} {pixels bytes : List UInt8} (wide : 1 ≤ frame.width)
    (nonempty : 1 ≤ frame.height)
    (prepared : prepareToDecode frame prefixes stack rowBuffer = some c)
    (valid : (scheme frame.datasize).decode start codes = some pixels)
    (packed : (scheme frame.datasize).Packs codes bytes) : Following frame pixels bytes c := by
  have missing := (prepareToDecode_rows prepared).1
  have waiting := (prepareToDecode_resting wide nonempty prepared).waiting (by omega)
  unfold prepareToDecode at prepared
  split at prepared
  case isTrue => simp at prepared
  case isFalse =>
    dsimp only at prepared
    split at prepared
    case isTrue => simp at prepared
    case isFalse =>
      cases prepared
      refine ⟨⟨start, codes, waiting.ready, ⟨Tables.clear least most (Nat.one_shiftLeft _) ?_ rfl rfl
        ?_, fun _ => rfl, ?_⟩, ⟨pixels, valid, rfl⟩, ?_⟩, waiting.few⟩
      · intro code literal
        dsimp only
        rw [Nat.one_shiftLeft, if_pos literal]
      · dsimp only
        rw [Nat.one_shiftLeft]
      · intro previous none
        simp [start] at none
      · dsimp only
        rw [Nat.zero_add, Nat.zero_add, Nat.pow_zero, Nat.one_mul]
        exact packed

/-- **The decoder is the textbook one**: on a valid sequence of codes with enough letters, packed
into blocks cut anywhere, the rows handed on are the first rows of these letters, and no call fails
before the last one unless the client does not take a row. -/
theorem doLZW_textbook (frame : GIFFrameContext) (client : Client) (prefixes : Nat → UInt16)
    (stack rowBuffer : Nat → UInt8) (c : GIFLZWContext) (codes : List Nat) (pixels : List UInt8)
    (blocks : List (List UInt8)) (least : 2 ≤ frame.datasize) (most : frame.datasize ≤ 8)
    (wide : 1 ≤ frame.width)
    (prepared : prepareToDecode frame prefixes stack rowBuffer = some c)
    (valid : (scheme frame.datasize).decode start codes = some pixels)
    (enough : frame.width * frame.height ≤ pixels.length)
    (packed : (scheme frame.datasize).Packs codes blocks.flatten) :
    ∃ result current d,
      decodeBlocks frame client c 0 (blocks.map some) = .ok (result, current, d) ∧
        d.rows = rowsOf frame.width d.rows.length pixels ∧
        (result = true → d.rowsRemaining = 0 ∧ d.rows = rowsOf frame.width frame.height pixels) ∧
        (result = false →
          ∃ before report, d.reports = before ++ [report] ∧ client before report = false) := by
  by_cases nonempty : 1 ≤ frame.height
  · obtain ⟨result, current, d, run, delivered⟩ := @decodeBlocks_follows frame client least most
      pixels enough blocks c 0
      (prepareToDecode_follows least most wide nonempty prepared valid packed)
    have rows := rows_eq delivered.widths delivered.image
    refine ⟨result, current, d, run, rows, ?_, delivered.refused⟩
    intro success
    obtain ⟨done, count⟩ := delivered.complete success
    rw [count] at rows
    exact ⟨done, rows⟩
  · -- a frame without rows is done at once
    have none : frame.height = 0 := by omega
    obtain ⟨missing, rows⟩ := prepareToDecode_rows prepared
    rw [none] at missing
    refine ⟨true, 0, c, decodeBlocks_done missing 0 _, ?_, fun _ => ⟨missing, ?_⟩, by simp⟩
    · rw [rows]
      rfl
    · rw [rows, none]
      rfl

/-- A frame of one row for the next statement. -/
def threePixels : GIFFrameContext :=
  { width := 3, height := 1, datasize := 2, progressiveDisplay := false, interlaced := false }

/-- The codes clear, 1 and 6, which is the next free one, in two blocks. -/
theorem doLZW_textbook_row : ∃ c result current d,
    prepareToDecode threePixels (fun _ => 0) (fun _ => 0) (fun _ => 0) = some c ∧
      decodeBlocks threePixels (fun _ _ => true) c 0 ([[0x8C], [0x01]].map some) =
        .ok (result, current, d) ∧
      (result = true → d.rows = [[1, 1, 1]]) := by
  have start : ∃ c, prepareToDecode threePixels (fun _ => 0) (fun _ => 0) (fun _ => 0) = some c :=
    ⟨_, rfl⟩
  obtain ⟨c, prepared⟩ := start
  obtain ⟨result, current, d, run, -, rows, -⟩ := doLZW_textbook threePixels (fun _ _ => true)
    (fun _ => 0) (fun _ => 0) (fun _ => 0) c [4, 1, 6] [1, 1, 1] [[0x8C], [0x01]] (by decide)
    (by decide) (by decide) prepared (by decide) (by decide) (by
      have size : Nat.size 6 = 3 :=
        Nat.le_antisymm (Nat.size_le.mpr (by decide)) (Nat.lt_size.mpr (by decide))
      have three : (scheme 2).pack start [4, 1, 6] = (396, 9) := by
        simp [Scheme.pack, Scheme.step, Scheme.width, Scheme.next, Scheme.clearCode, scheme, start,
          Scheme.spelled, Scheme.grow, MAX_LZW_BITS, size]
      show (scheme 2).Holds start [4, 1, 6] 16 396
      rw [Scheme.Holds, three]
      decide)
  exact ⟨c, result, current, d, prepared, run, fun success => (rows success).2⟩

end NetRider.Gif
