import NetRider.Lib.StepFunction

/-!
# Regions

A `Region` is a rectangle of bounds and a `Shape`: horizontal spans, each with the positions where
a scan line through it enters and leaves the region. Coordinates are integers; the code's are
`int`, which is the same as long as no sum or difference of them overflows.
-/

namespace NetRider.Graphics

structure IntPoint where
  x : Int
  y : Int
  deriving DecidableEq, Repr

structure IntSize where
  width : Int
  height : Int
  deriving DecidableEq, Repr

structure IntRect where
  x : Int
  y : Int
  width : Int
  height : Int
  deriving DecidableEq, Repr

/-- `std::numeric_limits<int>`. -/
def intMax : Int := 2147483647

def intMin : Int := -2147483648

namespace IntRect

/-- The default constructor. -/
def zero : IntRect := ⟨0, 0, 0, 0⟩

def maxX (r : IntRect) : Int := r.x + r.width

def maxY (r : IntRect) : Int := r.y + r.height

def isEmpty (r : IntRect) : Bool := r.width ≤ 0 || r.height ≤ 0

def intersects (r other : IntRect) : Bool :=
  !r.isEmpty && !other.isEmpty && r.x < other.maxX && other.x < r.maxX && r.y < other.maxY &&
    other.y < r.maxY

def contains (r other : IntRect) : Bool :=
  r.x ≤ other.x && r.maxX ≥ other.maxX && r.y ≤ other.y && r.maxY ≥ other.maxY

def containsPoint (r : IntRect) (p : IntPoint) : Bool :=
  p.x ≥ r.x && p.x < r.maxX && p.y ≥ r.y && p.y < r.maxY

def unite (r other : IntRect) : IntRect :=
  if other.isEmpty then r
  else if r.isEmpty then other
  else
    let l := min r.x other.x
    let t := min r.y other.y
    ⟨l, t, max r.maxX other.maxX - l, max r.maxY other.maxY - t⟩

def move (r : IntRect) (offset : IntSize) : IntRect :=
  { r with x := r.x + offset.width, y := r.y + offset.height }

end IntRect

/-- The spans, each with its `y` and its segments. The code keeps all segments in one vector, and
with each span the index of its first one. -/
abbrev Shape := List (Int × List Int)

namespace Shape

/-- `m_segments`. -/
def segments (shape : Shape) : List Int := shape.flatMap Prod.snd

/-- `m_spans`, when `index` segments have been appended before. -/
def spansFrom : Nat → Shape → List (Int × Nat)
  | _, [] => []
  | index, (y, segments) :: rest => (y, index) :: spansFrom (index + segments.length) rest

/-- `m_spans`. -/
def spans (shape : Shape) : List (Int × Nat) := spansFrom 0 shape

def isRect (shape : Shape) : Bool := shape.spans.length ≤ 2 && shape.segments.length ≤ 2

def ofRect (rect : IntRect) : Shape := [(rect.y, [rect.x, rect.maxX]), (rect.maxY, [])]

/-- `operator==`. -/
def equal (a b : Shape) : Bool := a.spans == b.spans && a.segments == b.segments

/-! ## Appending -/

def canCoalesce (shape : Shape) (segments : List Int) : Bool :=
  match shape.getLast? with
  | none => false
  | some last => last.2 == segments

def appendSpan (shape : Shape) (y : Int) (segments : List Int) : Shape :=
  if shape.canCoalesce segments then shape else shape ++ [(y, segments)]

def appendSpans (shape spans : Shape) : Shape :=
  spans.foldl (fun shape span => shape.appendSpan span.1 span.2) shape

/-! ## The scan line merge -/

structure Operation where
  opCode : Nat
  shouldAddRemainingSegmentsFromSpan1 : Bool
  shouldAddRemainingSegmentsFromSpan2 : Bool
  shouldAddRemainingSpansFromShape1 : Bool
  shouldAddRemainingSpansFromShape2 : Bool
  trySimpleOperation : Shape → Shape → Option Shape

def unionOperation : Operation :=
  ⟨0, true, true, true, true, fun shape1 shape2 => if shape1.isEmpty then some shape2 else none⟩

def intersectOperation : Operation := ⟨3, false, false, false, false, fun _ _ => none⟩

def subtractOperation : Operation := ⟨1, true, false, true, false, fun _ _ => none⟩

/-- What is left of two vectors when one of them is used up. -/
def remaining {α : Type} (from1 from2 : Bool) (rest1 rest2 : List α) : List α :=
  if from1 && !rest1.isEmpty then rest1 else if from2 && !rest2.isEmpty then rest2 else []

/-- The segments of one span of the result. `oldFlag` says with its bits whether the scan line is
inside of the first and of the second shape. -/
def mergeSegments (op : Operation) (oldFlag : Nat) : List Int → List Int → List Int
  | x1 :: s1, x2 :: s2 =>
    if x1 < x2 then
      let flag := oldFlag ^^^ 1
      let rest := mergeSegments op flag s1 (x2 :: s2)
      if flag = op.opCode ∨ oldFlag = op.opCode then x1 :: rest else rest
    else if x2 < x1 then
      let flag := oldFlag ^^^ 2
      let rest := mergeSegments op flag (x1 :: s1) s2
      if flag = op.opCode ∨ oldFlag = op.opCode then x2 :: rest else rest
    else
      let flag := oldFlag ^^^ 1 ^^^ 2
      let rest := mergeSegments op flag s1 s2
      if flag = op.opCode ∨ oldFlag = op.opCode then x2 :: rest else rest
  | s1, s2 =>
    remaining op.shouldAddRemainingSegmentsFromSpan1 op.shouldAddRemainingSegmentsFromSpan2 s1 s2
termination_by s1 s2 => s1.length + s2.length

/-- The end of one round: the merged span is appended, but no empty one in front. -/
def addSpan (op : Operation) (result : Shape) (y : Int) (segments1 segments2 : List Int) : Shape :=
  let segments := mergeSegments op 0 segments1 segments2
  if !segments.isEmpty || !result.isEmpty then result.appendSpan y segments else result

/-- The loop over the spans, with the segments of the spans that the scan line is in. -/
def mergeSpans (op : Operation) : Shape → Shape → List Int → List Int → Shape → Shape
  | (y1, new1) :: spans1, (y2, new2) :: spans2, segments1, segments2, result =>
    if y1 < y2 then
      mergeSpans op spans1 ((y2, new2) :: spans2) new1 segments2
        (addSpan op result y1 new1 segments2)
    else if y2 < y1 then
      mergeSpans op ((y1, new1) :: spans1) spans2 segments1 new2
        (addSpan op result y2 segments1 new2)
    else
      mergeSpans op spans1 spans2 new1 new2 (addSpan op result y2 new1 new2)
  | spans1, spans2, _, _, result =>
    result.appendSpans (remaining op.shouldAddRemainingSpansFromShape1
      op.shouldAddRemainingSpansFromShape2 spans1 spans2)
termination_by spans1 spans2 => spans1.length + spans2.length

def shapeOperation (op : Operation) (shape1 shape2 : Shape) : Shape :=
  (op.trySimpleOperation shape1 shape2).getD (mergeSpans op shape1 shape2 [] [] [])

def unionShapes : Shape → Shape → Shape := shapeOperation unionOperation

def intersectShapes : Shape → Shape → Shape := shapeOperation intersectOperation

def subtractShapes : Shape → Shape → Shape := shapeOperation subtractOperation

/-! ## Comparing -/

/-- What a comparison does where one shape is outside of the other, or overlaps it: it may return
a result. -/
structure CompareOperation where
  defaultResult : Bool
  aOutsideB : Option Bool
  bOutsideA : Option Bool
  aOverlapsB : Option Bool

def compareContainsOperation : CompareOperation := ⟨true, none, some false, none⟩

def compareSegments (op : CompareOperation) : List Int → List Int → Option Bool
  | aX :: aMaxX :: as, bX :: bMaxX :: bs =>
    (if bMaxX > aX ∧ bX < aMaxX then op.aOverlapsB else none) <|>
    (if aX < bX then op.aOutsideB else none) <|>
    (if bX < aX then op.bOutsideA else none) <|>
    if aMaxX < bMaxX then compareSegments op as (bX :: bMaxX :: bs)
    else if bMaxX < aMaxX then compareSegments op (aX :: aMaxX :: as) bs
    else compareSegments op as bs
  | as, bs =>
    (if as ≠ [] then op.aOutsideB else none) <|> (if bs ≠ [] then op.bOutsideA else none)
termination_by as bs => as.length + bs.length

/-- The loop over the spans. `aHad` and `bHad` say whether the previous spans had segments. -/
def compareSpans (op : CompareOperation) : Shape → Shape → Bool → Bool → Option Bool
  | (aY, as) :: (aMaxY, as') :: aRest, (bY, bs) :: (bMaxY, bs') :: bRest, aHad, bHad =>
    (if aY < bY ∧ bHad = false ∧ as ≠ [] then op.aOutsideB else none) <|>
    (if bY < aY ∧ aHad = false ∧ bs ≠ [] then op.bOutsideA else none) <|>
    (if bMaxY > aY ∧ bY < aMaxY then compareSegments op as bs else none) <|>
    if aMaxY < bMaxY then
      compareSpans op ((aMaxY, as') :: aRest) ((bY, bs) :: (bMaxY, bs') :: bRest) (as ≠ [])
        (bs ≠ [])
    else if bMaxY < aMaxY then
      compareSpans op ((aY, as) :: (aMaxY, as') :: aRest) ((bMaxY, bs') :: bRest) (as ≠ [])
        (bs ≠ [])
    else
      compareSpans op ((aMaxY, as') :: aRest) ((bMaxY, bs') :: bRest) (as ≠ []) (bs ≠ [])
  | aSpans, bSpans, _, _ =>
    (if aSpans.length ≥ 2 then op.aOutsideB else none) <|>
    (if bSpans.length ≥ 2 then op.bOutsideA else none)
termination_by aSpans bSpans => aSpans.length + bSpans.length

def compareShapes (op : CompareOperation) (a b : Shape) : Bool :=
  (compareSpans op a b false false).getD op.defaultResult

/-! ## Reading -/

/-- The loop of `bounds`. For an empty span between others `segments_begin` points to the next
span's first segment, and the one before `segments_end` is the previous span's last. -/
def boundsLoop (minX maxX : Int) : (previous : List Int) → Shape → Int × Int
  | _, [] => (minX, maxX)
  | _, [_] => (minX, maxX)
  | previous, span :: next :: rest =>
    match (segments (span :: next :: rest)).head?, (previous ++ span.2).getLast? with
    | some first, some last =>
      boundsLoop (if first < minX then first else minX) (if last > maxX then last else maxX)
        (previous ++ span.2) (next :: rest)
    | _, _ => boundsLoop minX maxX (previous ++ span.2) (next :: rest)

def bounds (shape : Shape) : IntRect :=
  match shape.head?, shape.getLast? with
  | some first, some last =>
    let (minX, maxX) := boundsLoop intMax intMin [] shape
    ⟨minX, first.1, maxX - minX, last.1 - first.1⟩
  | _, _ => .zero

def translate (shape : Shape) (offset : IntSize) : Shape :=
  shape.map fun span => (span.1 + offset.height, span.2.map (· + offset.width))

/-- The inner loop of `Region::contains`. -/
def segmentsContain : List Int → Int → Bool
  | x :: maxX :: rest, p =>
    if x > p then false else if maxX > p then true else segmentsContain rest p
  | _, _ => false

/-- The outer loop of `Region::contains`. -/
def containsPoint : Shape → IntPoint → Bool
  | (y, segments) :: (maxY, next) :: rest, p =>
    if y > p.y then false
    else if maxY ≤ p.y then containsPoint ((maxY, next) :: rest) p
    else segmentsContain segments p.x || containsPoint ((maxY, next) :: rest) p
  | _, _ => false

/-- The inner loop of `Region::rects`. -/
def segmentRects (y height : Int) : List Int → List IntRect
  | x :: maxX :: rest => ⟨x, y, maxX - x, height⟩ :: segmentRects y height rest
  | _ => []

/-- The outer loop of `Region::rects`. -/
def rects : Shape → List IntRect
  | (y, segments) :: (maxY, next) :: rest =>
    segmentRects y (maxY - y) segments ++ rects ((maxY, next) :: rest)
  | _ => []

end Shape

structure Region where
  bounds : IntRect
  shape : Shape
  deriving DecidableEq, Repr

namespace Region

/-- The constructor from a rectangle. -/
def ofRect (rect : IntRect) : Region := ⟨rect, .ofRect rect⟩

def isEmpty (r : Region) : Bool := r.bounds.isEmpty

def isRect (r : Region) : Bool := r.shape.isRect

def rects (r : Region) : List IntRect := r.shape.rects

def contains (r region : Region) : Bool :=
  r.bounds.contains region.bounds &&
    Shape.compareShapes Shape.compareContainsOperation r.shape region.shape

def containsPoint (r : Region) (p : IntPoint) : Bool :=
  r.bounds.containsPoint p && r.shape.containsPoint p

def intersect (r region : Region) : Region :=
  if r.bounds.isEmpty then r
  else if !r.bounds.intersects region.bounds then ⟨.zero, []⟩
  else
    let shape := r.shape.intersectShapes region.shape
    ⟨shape.bounds, shape⟩

def unite (r region : Region) : Region :=
  if region.isEmpty then r
  else if r.isRect && r.bounds.contains region.bounds then r
  else if region.isRect && region.bounds.contains r.bounds then region
  else if !r.isRect && r.contains region then r
  else ⟨r.bounds.unite region.bounds, r.shape.unionShapes region.shape⟩

def subtract (r region : Region) : Region :=
  if r.bounds.isEmpty then r
  else if region.isEmpty then r
  else if !r.bounds.intersects region.bounds then r
  else
    let shape := r.shape.subtractShapes region.shape
    ⟨shape.bounds, shape⟩

def translate (r : Region) (offset : IntSize) : Region :=
  ⟨r.bounds.move offset, r.shape.translate offset⟩

/-- `operator==`. -/
def equal (a b : Region) : Bool := a.bounds == b.bounds && a.shape.equal b.shape

end Region

end NetRider.Graphics
