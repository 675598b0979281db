import NetRider.Gif.OutputRow

/-!
# The decoder on any data

Whatever the blocks hold, the decoder stays in its tables and comes to an end.
-/

namespace NetRider.Gif

open Progress

/-! ## Ends -/

/-- A part goes on as `goes` says or returns as `returns` says; there is no fault. -/
def Progress.Ends {α : Type} (goes : α → Prop) (returns : Bool → GIFLZWContext → Prop) :
    Progress α → Prop
  | goesOn value => goes value
  | returned result c => returns result c
  | fault _ => False

theorem Progress.Ends.bind {α β : Type} {goes : α → Prop} {further : β → Prop}
    {returns : Bool → GIFLZWContext → Prop} {first : Progress α} {next : α → Progress β}
    (ends : first.Ends goes returns) (rest : ∀ value, goes value → (next value).Ends further returns) :
    (first >>= next).Ends further returns := by
  cases first with
  | goesOn value => exact rest value ends
  | returned result c => exact ends
  | fault f => exact ends.elim

theorem Progress.Ends.mono {α : Type} {goes further : α → Prop}
    {returns stops : Bool → GIFLZWContext → Prop} {part : Progress α} (ends : part.Ends goes returns)
    (onward : ∀ value, goes value → further value)
    (back : ∀ result c, returns result c → stops result c) : part.Ends further stops := by
  cases part with
  | goesOn value => exact onward value ends
  | returned result c => exact back result c ends
  | fault f => exact ends

theorem Progress.Ends.and {α : Type} {goes further : α → Prop}
    {returns stops : Bool → GIFLZWContext → Prop} {part : Progress α} (ends : part.Ends goes returns)
    (also : part.Ends further stops) : part.Ends (fun value => goes value ∧ further value) stops := by
  cases part with
  | goesOn value => exact ⟨ends, also⟩
  | returned result c => exact also
  | fault f => exact ends

theorem inTable_ends {index size : Nat} {returns : Bool → GIFLZWContext → Prop}
    (inside : index < size) : (inTable index size).Ends (fun _ => True) returns := by
  rw [inTable, if_pos inside]
  trivial

/-! ## The size of the codes -/

/-- How `codesize` and `codemask` go with the number of codes. With data sizes 0 and 1 the mask is
not of the size of the codes. -/
inductive Growth : Nat → Nat → Nat → Prop
  | regular {codesize codemask avail : Nat} (k : Nat) (few : k ≤ 11) (top : codemask.testBit k)
    (below : codemask < 2 ^ (k + 1)) (least : 1 ≤ codesize) (most : codesize ≤ k + 1)
    (many : 2 ^ k ≤ avail) (full : avail ≤ 2 ^ (k + 1)) (last : avail = 2 ^ (k + 1) → k = 11) :
    Growth codesize codemask avail
  | two {avail : Nat} (many : 4 ≤ avail) (full : avail < 8) : Growth 2 3 avail
  | one : Growth 1 1 3

theorem two_pow_le {k : Nat} (few : k ≤ 11) : 2 ^ (k + 1) ≤ 4096 :=
  Nat.pow_le_pow_right (by decide) (show k + 1 ≤ 12 by omega)

theorem Growth.bounds {codesize codemask avail : Nat} (growth : Growth codesize codemask avail) :
    1 ≤ codesize ∧ codesize ≤ 12 ∧ codemask < 4096 ∧ avail ≤ 4096 := by
  cases growth with
  | regular k few top below least most many full last =>
    have large := two_pow_le few
    omega
  | two many full => omega
  | one => decide

theorem and_two_pow_ne {n mask k : Nat} (top : mask.testBit k) (least : 2 ^ k ≤ n)
    (most : n < 2 ^ (k + 1)) : n &&& mask ≠ 0 := by
  intro zero
  have bit : (n &&& mask).testBit k = true := by
    rw [Nat.testBit_and, top, Bool.and_true]
    exact Nat.testBit_of_two_pow_le_and_two_pow_add_one_gt least most
  rw [zero, Nat.zero_testBit] at bit
  exact Bool.false_ne_true bit

theorem two_pow_and {mask k : Nat} (below : mask < 2 ^ k) : 2 ^ k &&& mask = 0 := by
  rw [Nat.and_comm, Nat.and_two_pow, Nat.testBit_lt_two_pow below]
  simp

/-- A further code, and perhaps longer codes. -/
theorem Growth.further {codesize codemask avail : Nat} (growth : Growth codesize codemask avail)
    (room : avail < 4096) :
    if (avail + 1) &&& codemask = 0 ∧ avail + 1 < 4096 then
      Growth (codesize + 1) (codemask + (avail + 1)) (avail + 1)
    else Growth codesize codemask (avail + 1) := by
  cases growth with
  | regular k few top below least most many full last =>
    have large := two_pow_le few
    have more : avail + 1 ≤ 2 ^ (k + 1) := by
      by_contra past
      have same : avail = 2 ^ (k + 1) := by omega
      rw [same, last same] at room
      exact absurd room (by decide)
    by_cases whole : avail + 1 = 2 ^ (k + 1)
    · rw [whole, two_pow_and below]
      split
      case isTrue longer =>
        have fewer : k + 1 ≤ 11 := by
          by_contra beyond
          have eleven : k = 11 := by omega
          rw [eleven] at longer
          exact absurd longer.2 (by decide)
        have double : 2 ^ (k + 1 + 1) = 2 ^ (k + 1) + 2 ^ (k + 1) := by rw [Nat.pow_succ]; omega
        have positive : 0 < 2 ^ (k + 1) := Nat.two_pow_pos (k + 1)
        refine .regular (k + 1) fewer ?_ (by omega) (by omega) (by omega) le_rfl (by omega) (by omega)
        rw [Nat.add_comm, Nat.testBit_two_pow_add_eq, Nat.testBit_lt_two_pow below]
        rfl
      case isFalse shorter =>
        refine .regular k few top below least most (by omega) le_rfl fun _ => ?_
        by_contra before
        have tenth : k + 1 ≤ 11 := by omega
        have smaller : 2 ^ (k + 1) ≤ 2 ^ 11 := Nat.pow_le_pow_right (by decide) tenth
        omega
    · rw [if_neg fun grows => and_two_pow_ne top (by omega) (by omega) grows.1]
      exact .regular k few top below least most (by omega) more fun same => absurd same whole
  | two many full =>
    by_cases eight : avail = 7
    · subst eight
      exact .regular 3 (by decide) (by decide) (by decide) (by decide) (by decide) (by decide)
        (by decide) (by decide)
    · have among : avail = 4 ∨ avail = 5 ∨ avail = 6 := by omega
      obtain rfl | rfl | rfl := among <;> exact .two (by decide) (by decide)
  | one =>
    exact .regular 2 (by decide) (by decide) (by decide) (by decide) (by decide) (by decide)
      (by decide) (by decide)

/-- The first codes of a data size. -/
theorem Growth.start {datasize : Nat} (small : datasize ≤ 11) :
    Growth (datasize + 1) (1 <<< (datasize + 1) - 1) (2 ^ datasize + 2) := by
  by_cases zero : datasize = 0
  · subst zero
    exact .one
  by_cases one : datasize = 1
  · subst one
    exact .two (by decide) (by decide)
  have four : 2 ^ 2 ≤ 2 ^ datasize := Nat.pow_le_pow_right (by decide) (by omega)
  have double : 2 ^ (datasize + 1) = 2 ^ datasize + 2 ^ datasize := by rw [Nat.pow_succ]; omega
  rw [Nat.one_shiftLeft]
  refine .regular datasize small ?_ (by omega) (by omega) le_rfl (by omega) (by omega) (by omega)
  rw [Nat.testBit_two_pow_sub_one]
  simp

/-! ## What stays true -/

variable {frame : GIFFrameContext} {client : Client} {height ipass irow : Nat}

/-- What the parts of the decoder say about codes. -/
structure Codes (frame : GIFFrameContext) (c : GIFLZWContext) : Prop where
  datasize : frame.datasize ≤ 11
  clearCode : c.clearCode = 2 ^ frame.datasize
  growth : Growth c.codesize c.codemask c.avail
  oldcode : ∀ old ∈ c.oldcode, old < 4096
  bits : c.bits < 32
  datum : c.datum < 2 ^ c.bits
  turns : ∀ turn ∈ c.turns, turn.1 ≤ 12 ∧ turn.2 < 32

/-- What they say about rows, as long as one is missing. -/
structure Rows (frame : GIFFrameContext) (c : GIFLZWContext) : Prop where
  place : frame.interlaced → passOf c.irow = c.ipass ∨ c.ipass = 5 ∧ c.irow = 0
  position : c.rowPosition < frame.width
  missing : 0 < c.rowsRemaining
  count : c.rows.length + c.rowsRemaining = frame.height
  widths : ∀ row ∈ c.rows, row.length = frame.width

/-- What remains when the decoder returns. -/
structure Bounded (frame : GIFFrameContext) (c : GIFLZWContext) : Prop where
  codesize : c.codesize ≤ 12
  bits : c.bits < 32
  turns : ∀ turn ∈ c.turns, turn.1 ≤ 12 ∧ turn.2 < 32
  rows : c.rows.length ≤ frame.height

/-- An early return; it is a success only if no row is missing. -/
structure Stopped (frame : GIFFrameContext) (result : Bool) (c : GIFLZWContext) : Prop where
  bounded : Bounded frame c
  complete : result = true → c.rowsRemaining = 0

/-- The decoder `c` with the rows of `d`. -/
def GIFLZWContext.withRows (c d : GIFLZWContext) : GIFLZWContext :=
  { c with
    ipass := d.ipass, irow := d.irow, rowPosition := d.rowPosition
    rowsRemaining := d.rowsRemaining, rowBuffer := d.rowBuffer, rows := d.rows
    reports := d.reports }

theorem Codes.bounded {c : GIFLZWContext} (codes : Codes frame c)
    (rows : c.rows.length ≤ frame.height) : Bounded frame c :=
  ⟨codes.growth.bounds.2.1, codes.bits, codes.turns, rows⟩

theorem Rows.few {c : GIFLZWContext} (rows : Rows frame c) : c.rows.length ≤ frame.height := by
  have count := rows.count
  omega

theorem clearCode_small {c : GIFLZWContext} (codes : Codes frame c) : c.clearCode ≤ 2048 := by
  rw [codes.clearCode]
  exact Nat.pow_le_pow_right (by decide) codes.datasize

/-! ## Rows -/

theorem nextRow_place (positive : 0 < height)
    (place : passOf irow = ipass ∨ ipass = 5 ∧ irow = 0) :
    ∃ next, nextRow height 5 ipass irow = goesOn next ∧
      (passOf next.2 = next.1 ∨ next.1 = 5 ∧ next.2 = 0) := by
  obtain rfl | ⟨rfl, rfl⟩ := place
  · have among := passOf_among irow
    obtain ⟨next, found, -, ends⟩ := @nextRow_spec height positive 5 irow (by omega)
    refine ⟨next, found, ?_⟩
    obtain ⟨rfl, -⟩ | ⟨pass, -⟩ := ends
    · exact .inr ⟨rfl, rfl⟩
    · exact .inl pass
  · exact ⟨(5, 0), rfl, .inr ⟨rfl, rfl⟩⟩

/-- `outputRow` answers, and changes nothing but the place of the row and what was reported; where
the answer is no, the client said so. -/
theorem outputRow_frame (positive : 0 < frame.height) {c : GIFLZWContext}
    (place : frame.interlaced → passOf c.irow = c.ipass ∨ c.ipass = 5 ∧ c.irow = 0) :
    ∃ accepted ipass irow reports,
      outputRow frame client c =
        goesOn (accepted, { c with ipass := ipass, irow := irow, reports := reports }) ∧
      (frame.interlaced → passOf irow = ipass ∨ ipass = 5 ∧ irow = 0) ∧
      (accepted = false → ∃ report, reports = c.reports ++ [report] ∧
        client c.reports report = false) := by
  unfold outputRow
  obtain ⟨drowStart, drowEnd⟩ := drows frame c.ipass c.irow
  dsimp only
  split
  case isTrue => exact ⟨true, c.ipass, c.irow, c.reports, rfl, place, by simp⟩
  case isFalse =>
    generalize made : Report.mk _ _ _ _ = report
    cases answer : client c.reports report with
    | false =>
      exact ⟨false, c.ipass, c.irow, c.reports ++ [report], by simp, place,
        fun _ => ⟨report, rfl, answer⟩⟩
    | true =>
      cases interlaced : frame.interlaced with
      | false =>
        exact ⟨true, c.ipass, c.irow + 1, c.reports ++ [report], by simp, by simp, by simp⟩
      | true =>
        obtain ⟨next, found, there⟩ := nextRow_place positive (place interlaced)
        exact ⟨true, next.1, next.2, c.reports ++ [report], by simp [found], fun _ => there,
          by simp⟩

/-- The pixels written so far: those of the rows handed on, and those of the next row. -/
def written (c : GIFLZWContext) : List UInt8 :=
  c.rows.flatten ++ (List.range c.rowPosition).map c.rowBuffer

/-- What a part that writes pixels goes on with. -/
structure Drawn (frame : GIFFrameContext) (c : GIFLZWContext) (pixels : List UInt8) (stackp : Nat)
    (d : GIFLZWContext) : Prop where
  same : d = { c.withRows d with stackp := stackp }
  rows : Rows frame d
  image : written d = written c ++ pixels

/-- What it returns with: all rows are out, or the client said no. -/
structure Handed (frame : GIFFrameContext) (client : Client) (c : GIFLZWContext)
    (pixels : List UInt8) (result : Bool) (d : GIFLZWContext) : Prop where
  same : d = { c.withRows d with stackp := d.stackp }
  image : d.rows.flatten <+: written c ++ pixels
  widths : ∀ row ∈ d.rows, row.length = frame.width
  few : d.rows.length ≤ frame.height
  complete : result = true → d.rowsRemaining = 0 ∧ d.rows.length = frame.height
  refused : result = false →
    ∃ before report, d.reports = before ++ [report] ∧ client before report = false

theorem Drawn.codes {c d : GIFLZWContext} {pixels : List UInt8} {stackp : Nat}
    (drawn : Drawn frame c pixels stackp d) (codes : Codes frame c) : Codes frame d := by
  rw [drawn.same]
  exact ⟨codes.datasize, codes.clearCode, codes.growth, codes.oldcode, codes.bits, codes.datum,
    codes.turns⟩

theorem Handed.stopped {c d : GIFLZWContext} {pixels : List UInt8} {result : Bool}
    (handed : Handed frame client c pixels result d) (codes : Codes frame c) :
    Stopped frame result d := by
  refine ⟨⟨?_, ?_, ?_, handed.few⟩, fun success => (handed.complete success).1⟩
  · rw [handed.same]
    exact codes.growth.bounds.2.1
  · rw [handed.same]
    exact codes.bits
  · rw [handed.same]
    exact codes.turns

theorem map_range_update {α : Type} (table : Nat → α) (size : Nat) (entry : α) :
    (List.range (size + 1)).map (Function.update table size entry) =
      (List.range size).map table ++ [entry] := by
  rw [List.range_succ, List.map_append, List.map_singleton, Function.update_self]
  congr 1
  refine List.map_congr_left fun index among => ?_
  exact Function.update_of_ne (List.mem_range.mp among).ne entry table

theorem putPixel_draws {c : GIFLZWContext} {pixel : UInt8} (rows : Rows frame c) :
    (putPixel frame client c pixel).Ends (Drawn frame c [pixel] c.stackp)
      (Handed frame client c [pixel]) := by
  have missing := rows.missing
  have count := rows.count
  have position := rows.position
  have image : c.rows.flatten ++ (List.range (c.rowPosition + 1)).map
      (Function.update c.rowBuffer c.rowPosition pixel) = written c ++ [pixel] := by
    rw [map_range_update, ← List.append_assoc, written]
  unfold putPixel
  refine (inTable_ends rows.position).bind fun _ _ => ?_
  dsimp only
  split
  case isFalse unfinished =>
    exact ⟨rfl, ⟨rows.place, by dsimp only; omega, missing, count, rows.widths⟩, image⟩
  case isTrue full =>
    rw [full] at image
    generalize Function.update c.rowBuffer c.rowPosition pixel = rowBuffer at *
    unfold outputFullRow
    obtain ⟨accepted, ipass, irow, reports, answer, place, refusal⟩ :=
      @outputRow_frame frame client (by omega) { c with
        rowBuffer := rowBuffer
        rowPosition := c.rowPosition + 1
        rows := c.rows ++ [(List.range frame.width).map rowBuffer] } rows.place
    dsimp only at answer refusal ⊢
    rw [answer]
    simp only [pure_bind]
    have length : (c.rows ++ [(List.range frame.width).map rowBuffer]).length =
        c.rows.length + 1 := by simp
    have widths : ∀ row ∈ c.rows ++ [(List.range frame.width).map rowBuffer],
        row.length = frame.width := by
      intro row among
      obtain earlier | here := List.mem_append.mp among
      · exact rows.widths row earlier
      · rw [List.mem_singleton.mp here, List.length_map, List.length_range]
    have flat : (c.rows ++ [(List.range frame.width).map rowBuffer]).flatten =
        written c ++ [pixel] := by
      rw [← image, List.flatten_append, List.flatten_singleton]
    cases accepted with
    | false =>
      obtain ⟨report, reported, no⟩ := refusal rfl
      exact ⟨rfl, flat ▸ List.prefix_refl _, widths, by dsimp only; omega, by simp,
        fun _ => ⟨c.reports, report, reported, no⟩⟩
    | true =>
      simp only [Bool.not_true, Bool.false_eq_true, if_false]
      split
      case isTrue last =>
        exact ⟨rfl, flat ▸ List.prefix_refl _, widths, by dsimp only; omega,
          fun _ => ⟨last, by dsimp only; omega⟩, by simp⟩
      case isFalse more =>
        refine ⟨rfl, ⟨place, by dsimp only; omega, by dsimp only; omega, ?_, widths⟩, ?_⟩
        · dsimp only
          omega
        · rw [written, flat]
          simp

/-- The stack is copied from its top. -/
theorem copyStack_draws : ∀ {stackp : Nat} {c : GIFLZWContext}, 0 < stackp → stackp ≤ MAX_BYTES →
    Rows frame c →
    (copyStack frame client stackp c).Ends
      (Drawn frame c ((List.range stackp).map c.stack).reverse 0)
      (Handed frame client c ((List.range stackp).map c.stack).reverse) := by
  intro stackp
  induction stackp with
  | zero =>
    intro c positive
    omega
  | succ stackp ih =>
    intro c _ fits rows
    have pixels : ((List.range (stackp + 1)).map c.stack).reverse =
        [c.stack stackp] ++ ((List.range stackp).map c.stack).reverse := by
      rw [List.range_succ, List.map_append, List.reverse_append]
      rfl
    rw [pixels]
    unfold copyStack
    refine (inTable_ends (by omega)).bind fun _ _ => ?_
    have rows' : Rows frame { c with stackp := stackp } :=
      ⟨rows.place, rows.position, rows.missing, rows.count, rows.widths⟩
    have first := @putPixel_draws frame client _ (c.stack stackp) rows'
    cases put : putPixel frame client { c with stackp := stackp } (c.stack stackp) with
    | fault f =>
      rw [put] at first
      exact first.elim
    | returned result d =>
      rw [put] at first
      refine ⟨first.same, first.image.trans ?_, first.widths, first.few, first.complete,
        first.refused⟩
      rw [← List.append_assoc]
      exact List.prefix_append _ _
    | goesOn d =>
      rw [put] at first
      obtain ⟨same, rowsD, image⟩ := first
      rw [pure_bind]
      split
      case isTrue more =>
        have stack : d.stack = c.stack := by rw [same]; rfl
        have rest := @ih d more (by omega) rowsD
        rw [stack] at rest
        refine rest.mono ?_ ?_
        · intro e drawn
          refine ⟨?_, drawn.rows, ?_⟩
          · rw [drawn.same, same]
            rfl
          · rw [drawn.image, image, List.append_assoc]
            rfl
        · intro result e handed
          refine ⟨?_, ?_, handed.widths, handed.few, handed.complete, handed.refused⟩
          · rw [handed.same, same]
            rfl
          · rw [← List.append_assoc]
            have whole := handed.image
            rw [image] at whole
            exact whole
      case isFalse none =>
        have zero : stackp = 0 := by omega
        subst zero
        exact ⟨same, rowsD, image⟩

/-! ## Codes -/

theorem push_ends {c : GIFLZWContext} {pixel : UInt8} {returns : Bool → GIFLZWContext → Prop}
    (room : c.stackp < MAX_BYTES) :
    (push c pixel).Ends
      (fun d => d = { c with
        stack := Function.update c.stack c.stackp pixel, stackp := c.stackp + 1 }) returns := by
  unfold push
  refine (inTable_ends room).bind fun _ _ => ?_
  rfl

/-- Whatever the prefixes are, the loop ends before the stack is full. -/
theorem followPrefixes_ends {c : GIFLZWContext} {code : Nat} (codes : Codes frame c)
    (few : c.rows.length ≤ frame.height) (room : c.stackp < MAX_BYTES) :
    (followPrefixes c code).Ends
      (fun found => found.1 = { c with stack := found.1.stack, stackp := found.1.stackp } ∧
        found.1.stackp < MAX_BYTES ∧ found.2 < c.clearCode) (Stopped frame) := by
  have stops (stack : Nat → UInt8) (stackp : Nat) :
      Stopped frame false { c with stack := stack, stackp := stackp } :=
    ⟨⟨codes.growth.bounds.2.1, codes.bits, codes.turns, few⟩, by simp⟩
  fun_induction followPrefixes c code with
  | case1 c code above bad => exact stops c.stack c.stackp
  | case2 c code above good inside c' full => exact stops _ _
  | case3 c code above good inside c' more ih =>
    have codes' : Codes frame c' :=
      ⟨codes.datasize, codes.clearCode, codes.growth, codes.oldcode, codes.bits, codes.datum,
        codes.turns⟩
    refine (ih codes' few (by have := Nat.lt_of_le_of_ne inside more; exact this) stops).mono ?_
      fun _ _ => id
    rintro ⟨d, first⟩ ⟨same, fits, below⟩
    exact ⟨same, fits, below⟩
  | case4 c code above good outside => exact outside room
  | case5 c code below => exact ⟨rfl, room, by omega⟩

theorem define_ends {c : GIFLZWContext} {oldcode : Nat} {returns : Bool → GIFLZWContext → Prop}
    (codes : Codes frame c) :
    (define c oldcode).Ends
      (fun d => Codes frame d ∧ d = { c with
        prefixes := d.prefixes, suffix := d.suffix, avail := d.avail, codesize := d.codesize
        codemask := d.codemask }) returns := by
  unfold define
  split
  case isFalse full => exact ⟨codes, rfl⟩
  case isTrue room =>
    refine (inTable_ends (show c.avail < 4097 by omega)).bind fun _ _ => ?_
    have growth := codes.growth.further room
    dsimp only
    split
    case isTrue longer =>
      rw [if_pos longer] at growth
      exact ⟨⟨codes.datasize, codes.clearCode, growth, codes.oldcode, codes.bits, codes.datum,
        codes.turns⟩, rfl⟩
    case isFalse same =>
      rw [if_neg same] at growth
      exact ⟨⟨codes.datasize, codes.clearCode, growth, codes.oldcode, codes.bits, codes.datum,
        codes.turns⟩, rfl⟩

theorem pushUndefined_ends {c : GIFLZWContext} {oldcode code : Nat}
    {returns : Bool → GIFLZWContext → Prop} (empty : c.stackp = 0) :
    (pushUndefined c oldcode code).Ends
      (fun start => start.1 = { c with stack := start.1.stack, stackp := start.1.stackp } ∧
        start.1.stackp ≤ 1) returns := by
  unfold pushUndefined
  split
  case isFalse known => exact ⟨rfl, by dsimp only; omega⟩
  case isTrue unknown =>
    refine (push_ends (by rw [empty]; decide)).bind fun d pushed => ?_
    have one : d.stackp = 1 := by rw [pushed, empty]
    rw [if_neg (by rw [one]; decide)]
    exact ⟨by rw [pushed], by dsimp only; omega⟩

/-- The decoder between two codes. -/
structure Ready (frame : GIFFrameContext) (c : GIFLZWContext) : Prop where
  codes : Codes frame c
  rows : Rows frame c
  stackp : c.stackp = 0

theorem decodeCode_ends {c : GIFLZWContext} {oldcode code : Nat} (ready : Ready frame c)
    (small : code < 4096) :
    (decodeCode frame client c oldcode code).Ends
      (fun d => Ready frame d ∧ d.bits = c.bits ∧ d.datum = c.datum) (Stopped frame) := by
  obtain ⟨codes, rows, empty⟩ := ready
  have few := rows.few
  unfold decodeCode
  refine (pushUndefined_ends empty).bind ?_
  rintro ⟨d, start⟩ ⟨same, low⟩
  dsimp only at same low ⊢
  have codesD : Codes frame d := by
    rw [same]
    exact ⟨codes.datasize, codes.clearCode, codes.growth, codes.oldcode, codes.bits, codes.datum,
      codes.turns⟩
  refine (followPrefixes_ends codesD (by rw [same]; exact few)
    (Nat.lt_of_le_of_lt low (by decide))).bind ?_
  rintro ⟨e, first⟩ ⟨followed, room, below⟩
  dsimp only at followed room below ⊢
  have table := clearCode_small codesD
  refine (inTable_ends (show first < 4097 by omega)).bind fun _ _ => ?_
  refine Ends.bind (push_ends (by exact room)) fun f pushed => ?_
  have codesF : Codes frame f := by
    rw [pushed, followed, same]
    exact ⟨codes.datasize, codes.clearCode, codes.growth, codes.oldcode, codes.bits, codes.datum,
      codes.turns⟩
  refine (define_ends codesF).bind ?_
  rintro g ⟨codesG, defined⟩
  have rowsG : Rows frame { g with oldcode := some code } := by
    rw [defined, pushed, followed, same]
    exact ⟨rows.place, rows.position, rows.missing, rows.count, rows.widths⟩
  have codesG' : Codes frame { g with oldcode := some code } :=
    ⟨codesG.datasize, codesG.clearCode, codesG.growth, by simpa using small, codesG.bits,
      codesG.datum, codesG.turns⟩
  have stacked : g.stackp = e.stackp + 1 := by rw [defined, pushed]
  have kept : g.bits = c.bits ∧ g.datum = c.datum := by
    rw [defined, pushed, followed, same]
    exact ⟨rfl, rfl⟩
  refine (copyStack_draws (by omega) (by omega) rowsG).mono ?_
    fun _ _ handed => handed.stopped codesG'
  intro h drawn
  exact ⟨⟨drawn.codes codesG', drawn.rows, by rw [drawn.same]⟩, by rw [drawn.same]; exact kept⟩

theorem processCode_ends {c : GIFLZWContext} {code : Nat} (ready : Ready frame c)
    (small : code < 4096) :
    (processCode frame client c code).Ends
      (fun d => Ready frame d ∧ d.bits = c.bits ∧ d.datum = c.datum) (Stopped frame) := by
  have codes := ready.codes
  have rows := ready.rows
  unfold processCode
  split
  case isTrue clear =>
    refine ⟨⟨⟨codes.datasize, codes.clearCode, ?_, by simp, codes.bits, codes.datum, codes.turns⟩,
      ⟨rows.place, rows.position, rows.missing, rows.count, rows.widths⟩, ready.stackp⟩, rfl, rfl⟩
    dsimp only
    rw [codes.clearCode]
    exact Growth.start codes.datasize
  case isFalse notClear =>
    split
    case isTrue ending =>
      exact ⟨codes.bounded rows.few, fun complete => of_decide_eq_true complete⟩
    case isFalse =>
      split
      case h_1 first =>
        refine (inTable_ends (show code < 4097 by omega)).bind fun _ _ => ?_
        refine ((putPixel_draws rows).mono (fun _ => id)
          fun _ _ handed => handed.stopped codes).bind ?_
        intro d drawn
        have codesD := drawn.codes codes
        have rowsD := drawn.rows
        have kept : d.bits = c.bits ∧ d.datum = c.datum := by
          rw [drawn.same]
          exact ⟨rfl, rfl⟩
        refine ⟨⟨⟨codesD.datasize, codesD.clearCode, codesD.growth, by simpa using small,
          codesD.bits, codesD.datum, codesD.turns⟩, ⟨rowsD.place, rowsD.position, rowsD.missing,
          rowsD.count, rowsD.widths⟩, ?_⟩, kept⟩
        rw [drawn.same]
        exact ready.stackp
      case h_2 => exact decodeCode_ends ready small

/-- A turn of the loop over the codes. -/
theorem Ready.turn {c : GIFLZWContext} (ready : Ready frame c) :
    Ready frame { c with turns := c.turns ++ [(c.codesize, c.bits)] } := by
  obtain ⟨codes, rows, empty⟩ := ready
  have turn : ∀ turn ∈ c.turns ++ [(c.codesize, c.bits)], turn.1 ≤ 12 ∧ turn.2 < 32 := by
    intro turn among
    obtain earlier | here := List.mem_append.mp among
    · exact codes.turns turn earlier
    · rw [List.mem_singleton.mp here]
      exact ⟨codes.growth.bounds.2.1, codes.bits⟩
  exact ⟨⟨codes.datasize, codes.clearCode, codes.growth, codes.oldcode, codes.bits, codes.datum,
    turn⟩, ⟨rows.place, rows.position, rows.missing, rows.count, rows.widths⟩, empty⟩

/-- A code is taken from the bits. -/
theorem Ready.take {c : GIFLZWContext} (ready : Ready frame c) (whole : c.codesize ≤ c.bits) :
    Ready frame { c with
      turns := c.turns ++ [(c.codesize, c.bits)]
      datum := c.datum >>> c.codesize
      bits := c.bits - c.codesize } := by
  obtain ⟨codes, rows, empty⟩ := ready.turn
  have datum : c.datum >>> c.codesize < 2 ^ (c.bits - c.codesize) := by
    rw [Nat.shiftRight_eq_div_pow]
    refine Nat.div_lt_of_lt_mul ?_
    rw [← Nat.pow_add, Nat.add_sub_cancel' whole]
    exact codes.datum
  exact ⟨⟨codes.datasize, codes.clearCode, codes.growth, codes.oldcode,
    Nat.lt_of_le_of_lt (Nat.sub_le ..) codes.bits, datum, codes.turns⟩,
    ⟨rows.place, rows.position, rows.missing, rows.count, rows.widths⟩, empty⟩

/-- A byte is fed behind the bits. -/
theorem Ready.feed {c : GIFLZWContext} (ready : Ready frame c) (few : c.bits < c.codesize)
    (byte : UInt8) :
    Ready frame { c with datum := c.datum + byte.toNat <<< c.bits, bits := c.bits + 8 } := by
  obtain ⟨codes, rows, empty⟩ := ready
  have bounds := codes.growth.bounds
  have datum : c.datum + byte.toNat <<< c.bits < 2 ^ (c.bits + 8) := by
    have one : byte.toNat + 1 ≤ 256 := byte.toNat_lt
    have shifted : (byte.toNat + 1) * 2 ^ c.bits ≤ 256 * 2 ^ c.bits :=
      Nat.mul_le_mul_right _ one
    have low := codes.datum
    rw [Nat.add_mul] at shifted
    rw [Nat.shiftLeft_eq, Nat.pow_add, Nat.mul_comm (2 ^ c.bits)]
    omega
  exact ⟨⟨codes.datasize, codes.clearCode, codes.growth, codes.oldcode,
    show c.bits + 8 < 32 by omega, datum, codes.turns⟩,
    ⟨rows.place, rows.position, rows.missing, rows.count, rows.widths⟩, empty⟩

/-- The loop over the codes ends, since every code has a bit. -/
theorem readCodes_ends : ∀ {turns : Nat} {c : GIFLZWContext}, c.bits < turns → Ready frame c →
    (readCodes frame client c turns).Ends
      (fun d => Ready frame d ∧ d.bits < d.codesize) (Stopped frame) := by
  intro turns
  induction turns with
  | zero =>
    intro c impossible
    omega
  | succ turns ih =>
    intro c enough ready
    have bounds := ready.codes.growth.bounds
    unfold readCodes
    dsimp only
    split
    case isFalse =>
      refine ⟨ready.turn, ?_⟩
      dsimp only
      omega
    case isTrue whole =>
      have small : c.datum &&& c.codemask < 4096 :=
        Nat.lt_of_le_of_lt Nat.and_le_right bounds.2.2.1
      refine (processCode_ends (ready.take whole) small).bind ?_
      rintro d ⟨readyD, bits, -⟩
      dsimp only at bits
      exact ih (by omega) readyD

/-- The decoder between two bytes. -/
structure Waiting (frame : GIFFrameContext) (c : GIFLZWContext) : Prop where
  ready : Ready frame c
  few : c.bits < c.codesize

theorem feedByte_ends {c : GIFLZWContext} {byte : UInt8} (waiting : Waiting frame c) :
    (feedByte frame client c byte).Ends (Waiting frame) (Stopped frame) := by
  unfold feedByte
  refine Ends.mono (readCodes_ends (Nat.lt_succ_self _) (waiting.ready.feed waiting.few byte)) ?_
    fun _ _ => id
  rintro d ⟨ready, fewer⟩
  exact ⟨ready, fewer⟩

theorem feedBytes_ends {bytes : List UInt8} : ∀ {c : GIFLZWContext}, Waiting frame c →
    (feedBytes frame client c bytes).Ends (Waiting frame) (Stopped frame) := by
  induction bytes with
  | nil =>
    intro c waiting
    exact waiting
  | cons byte bytes ih =>
    intro c waiting
    exact (feedByte_ends waiting).bind fun d further => ih further

/-- What a call of `doLZW` ends with: the decoder goes on, or all rows are out. -/
structure Resting (frame : GIFFrameContext) (c : GIFLZWContext) : Prop where
  bounded : Bounded frame c
  waiting : 0 < c.rowsRemaining → Waiting frame c

theorem Waiting.resting {c : GIFLZWContext} (waiting : Waiting frame c) : Resting frame c :=
  ⟨waiting.ready.codes.bounded waiting.ready.rows.few, fun _ => waiting⟩

theorem doLZW_safe {c : GIFLZWContext} (waiting : Waiting frame c) (block : List UInt8) :
    ∃ result d, doLZW frame client c block = .ok (result, d) ∧ Bounded frame d ∧
      (result = true → Resting frame d) := by
  have inside := waiting.ready.rows.position
  have ends := @feedBytes_ends frame client block c waiting
  unfold doLZW
  rw [if_neg (by omega)]
  cases fed : feedBytes frame client c block with
  | goesOn d =>
    rw [fed] at ends
    exact ⟨true, d, rfl, ends.resting.bounded, fun _ => ends.resting⟩
  | returned result d =>
    rw [fed] at ends
    refine ⟨result, d, rfl, ends.bounded, fun success => ⟨ends.bounded, fun missing => ?_⟩⟩
    rw [ends.complete success] at missing
    omega
  | fault f =>
    rw [fed] at ends
    exact ends.elim

theorem decodeBlocks_safe {contents : List (Option (List UInt8))} :
    ∀ {c : GIFLZWContext} (current : Nat), Resting frame c →
      ∃ result current' d, decodeBlocks frame client c current contents = .ok (result, current', d) ∧
        Bounded frame d ∧ (result = true → Resting frame d) := by
  induction contents with
  | nil =>
    intro c current resting
    exact ⟨true, current, c, rfl, resting.bounded, fun _ => resting⟩
  | cons content contents ih =>
    intro c current resting
    unfold decodeBlocks
    split
    case isTrue done => exact ⟨true, current, c, rfl, resting.bounded, fun _ => resting⟩
    case isFalse missing =>
      cases content with
      | none => exact ⟨false, current, c, rfl, resting.bounded, by simp⟩
      | some block =>
        obtain ⟨result, d, call, bounded, further⟩ :=
          @doLZW_safe frame client c (resting.waiting (by omega)) block
        dsimp only
        rw [call]
        cases result with
        | false => exact ⟨false, current, d, rfl, bounded, by simp⟩
        | true => exact ih (current + 1) (further rfl)

theorem prepareToDecode_resting {prefixes : Nat → UInt16} {stack rowBuffer : Nat → UInt8}
    {c : GIFLZWContext} (wide : 1 ≤ frame.width) (nonempty : 1 ≤ frame.height)
    (prepared : prepareToDecode frame prefixes stack rowBuffer = some c) : Resting frame c := by
  unfold prepareToDecode at prepared
  split at prepared
  case isTrue => simp at prepared
  case isFalse small =>
    have eleven : frame.datasize ≤ 11 := by
      simp only [MAX_LZW_BITS] at small
      omega
    dsimp only at prepared
    split at prepared
    case isTrue => simp at prepared
    case isFalse =>
      cases prepared
      refine Waiting.resting ⟨⟨⟨eleven, Nat.one_shiftLeft _, ?_, by simp, by simp, by simp,
        by simp⟩, ⟨?_, wide, nonempty, by simp, by simp⟩, rfl⟩, by simp⟩
      · dsimp only
        rw [Nat.one_shiftLeft frame.datasize]
        exact Growth.start eleven
      · intro interlaced
        left
        simp [interlaced, passOf]

/-! ## Frames -/

/-- A call of `decode`: the blocks found since the last one, whether these are all, and the data. -/
structure DecodeCall where
  found : List GIFLZWBlock
  isComplete : Bool
  data : List UInt8

/-- The calls of `decode` for a frame up to the one that fails or completes it, with the decoder
behind each. -/
def decodeCalls (client : Client) (prefixes : Nat → UInt16) (stack rowBuffer : Nat → UInt8) :
    GIFFrame → List DecodeCall → Except Fault (List GIFLZWContext)
  | _, [] => .ok []
  | g, call :: calls => do
    let g := { g with lzwBlocks := g.lzwBlocks ++ call.found, isComplete := call.isComplete }
    let decoded ← g.decode client prefixes stack rowBuffer call.data
    if !decoded.success || decoded.frameDecoded then .ok decoded.decoder.toList
    else
      let decoders ← decodeCalls client prefixes stack rowBuffer decoded.frame calls
      .ok (decoded.decoder.toList ++ decoders)

/-- What the decoder of a frame is like between the calls. -/
def GIFFrame.Safe (g : GIFFrame) : Prop := ∀ c ∈ g.lzwContext, Resting g.toGIFFrameContext c

theorem decodeFrom_safe {g : GIFFrame} {data : List UInt8} {c : GIFLZWContext} (current : Nat)
    (resting : Resting g.toGIFFrameContext c) :
    ∃ decoded, g.decodeFrom client data c current = .ok decoded ∧
      (∀ c ∈ decoded.decoder, Bounded g.toGIFFrameContext c) ∧
      decoded.frame.toGIFFrameContext = g.toGIFFrameContext ∧
      (decoded.success = true → decoded.frame.Safe) := by
  obtain ⟨result, current', d, blocks, bounded, further⟩ := @decodeBlocks_safe g.toGIFFrameContext
    client ((g.lzwBlocks.drop current).map (·.content data)) c current resting
  simp only [GIFFrame.decodeFrom, blocks]
  refine ⟨_, rfl, by simpa using bounded, rfl, ?_⟩
  intro success e among
  dsimp only at among
  split at among
  · simp at among
  · rw [← Option.some.inj among]
    exact further success

theorem decode_safe {g : GIFFrame} {prefixes : Nat → UInt16} {stack rowBuffer : Nat → UInt8}
    {data : List UInt8} (safe : g.Safe) (wide : 1 ≤ g.width) (nonempty : 1 ≤ g.height) :
    ∃ decoded, g.decode client prefixes stack rowBuffer data = .ok decoded ∧
      (∀ c ∈ decoded.decoder, Bounded g.toGIFFrameContext c) ∧
      decoded.frame.toGIFFrameContext = g.toGIFFrameContext ∧
      (decoded.success = true → decoded.frame.Safe) := by
  unfold GIFFrame.decode
  cases decoder : g.lzwContext with
  | some c => exact decodeFrom_safe g.currentLzwBlock (safe c decoder)
  | none =>
    dsimp only
    split
    case isTrue => exact ⟨_, rfl, by simp, rfl, fun _ => safe⟩
    case isFalse =>
      cases prepared : prepareToDecode g.toGIFFrameContext prefixes stack rowBuffer with
      | none => exact ⟨_, rfl, by simp, rfl, by simp⟩
      | some c => exact decodeFrom_safe 0 (prepareToDecode_resting wide nonempty prepared)

theorem decodeCalls_safe {prefixes : Nat → UInt16} {stack rowBuffer : Nat → UInt8}
    {calls : List DecodeCall} : ∀ {g : GIFFrame}, g.Safe → 1 ≤ g.width → 1 ≤ g.height →
      ∃ decoders, decodeCalls client prefixes stack rowBuffer g calls = .ok decoders ∧
        ∀ c ∈ decoders, Bounded g.toGIFFrameContext c := by
  induction calls with
  | nil =>
    intro g _ _ _
    exact ⟨[], rfl, by simp⟩
  | cons call calls ih =>
    intro g safe wide nonempty
    obtain ⟨decoded, answer, bounded, same, further⟩ := @decode_safe client
      { g with lzwBlocks := g.lzwBlocks ++ call.found, isComplete := call.isComplete }
      prefixes stack rowBuffer call.data safe wide nonempty
    have first : ∀ c ∈ decoded.decoder.toList, Bounded g.toGIFFrameContext c := by
      intro c among
      exact bounded c (by simpa using among)
    unfold decodeCalls
    simp only [answer, Bind.bind, Except.bind]
    cases ended : !decoded.success || decoded.frameDecoded with
    | true => exact ⟨decoded.decoder.toList, by simp, first⟩
    | false =>
      simp only [Bool.or_eq_false_iff, Bool.not_eq_false'] at ended
      obtain ⟨decoders, more, rest⟩ := @ih decoded.frame (further ended.1)
        (by rw [same]; exact wide) (by rw [same]; exact nonempty)
      refine ⟨decoded.decoder.toList ++ decoders, by simp [more], ?_⟩
      intro c among
      obtain here | later := List.mem_append.mp among
      · exact first c here
      · have bound := rest c later
        rw [same] at bound
        exact bound

/-- **The decoder is safe on any data**: whatever the blocks, the data and the first content of the
tables are, all calls of `decode` for a frame come to an end inside the tables, with code sizes of
at most 12 and fewer than 32 bits at every turn, and no more rows than the frame has. -/
theorem decode_any_data (g : GIFFrame) (client : Client) (prefixes : Nat → UInt16)
    (stack rowBuffer : Nat → UInt8) (calls : List DecodeCall) (fresh : g.lzwContext = none)
    (wide : 1 ≤ g.width) (nonempty : 1 ≤ g.height) :
    ∃ decoders, decodeCalls client prefixes stack rowBuffer g calls = .ok decoders ∧
      ∀ c ∈ decoders, c.codesize ≤ 12 ∧ c.bits < 32 ∧
        (∀ turn ∈ c.turns, turn.1 ≤ 12 ∧ turn.2 < 32) ∧ c.rows.length ≤ g.height := by
  have safe : g.Safe := by
    intro c among
    rw [fresh] at among
    simp at among
  obtain ⟨decoders, run, bounded⟩ := decodeCalls_safe safe wide nonempty
  refine ⟨decoders, run, ?_⟩
  intro c among
  obtain ⟨codesize, bits, turns, rows⟩ := bounded c among
  exact ⟨codesize, bits, turns, rows⟩

/-- A frame of one row, with a block of the codes clear, 1 and 6, which is the next free one. -/
def oneRow : GIFFrame :=
  { width := 3, height := 1, datasize := 2, progressiveDisplay := false, interlaced := false
    lzwContext := none, lzwBlocks := [⟨0, 2⟩], currentLzwBlock := 0, isComplete := false
    isHeaderDefined := true, isDataSizeDefined := true }

theorem decode_any_data_row : ∃ decoders,
    decodeCalls (fun _ _ => true) (fun _ => 0) (fun _ => 0) (fun _ => 0) oneRow
        [⟨[], false, [0x8C, 0x01]⟩] = .ok decoders ∧
      ∀ c ∈ decoders, c.codesize ≤ 12 ∧ c.bits < 32 ∧
        (∀ turn ∈ c.turns, turn.1 ≤ 12 ∧ turn.2 < 32) ∧ c.rows.length ≤ 1 :=
  decode_any_data oneRow (fun _ _ => true) (fun _ => 0) (fun _ => 0) (fun _ => 0)
    [⟨[], false, [0x8C, 0x01]⟩] rfl (by decide) (by decide)

end NetRider.Gif
